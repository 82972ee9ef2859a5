import GraphTape.Engine.Sample
import GraphTape.Proofs.Memory.Alike

/-!
# What packing leaves in a region

A sample that is packed without a fault leaves the vector given for a node in the place of the
node, whatever the region held before: every place is written, and the last entry for a node
counts. Whether there is a fault depends on the sample and on which nodes have a place.

* `vectorOf`: the vector that a list of entries gives for a node.
* `Layout.fst_pack`, `Layout.fst_packBatch`: the faults.
* `Layout.pack_spec`: one region of one sample.
* `Region.Fills`: a region without gaps, of which nothing of what it held before is left
  (`Layout.eq_of_pack`).
* `Layout.packBatch_spec`: all samples of a batch, each in strides of its own.
-/

namespace GraphTape

variable {α : Type} [Zero α]

/-- The vector of the last entry for a node, or `x` if there is none. -/
def vectorFrom (n : Nat) (x : Nat → α) (entries : List (Nat × Buffer α)) : Nat → α :=
  entries.foldl (fun x entry => if entry.1 = n then entry.2.view 0 else x) x

/-- The vector that entries give for a node. -/
def vectorOf (entries : List (Nat × Buffer α)) (n : Nat) : Nat → α :=
  vectorFrom n (fun _ => 0) entries

theorem vectorFrom_congr {n : Nat} {x y : Nat → α} {i : Nat} (h : x i = y i)
    (entries : List (Nat × Buffer α)) :
    vectorFrom n x entries i = vectorFrom n y entries i := by
  induction entries generalizing x y with
  | nil => exact h
  | cons entry entries ih =>
    refine ih (x := if entry.1 = n then _ else x) (y := if entry.1 = n then _ else y) ?_
    split
    · rfl
    · exact h

/-- Once there is an entry for a node, what was there before does not matter. -/
theorem vectorFrom_eq_vectorOf {n : Nat} {entries : List (Nat × Buffer α)}
    (h : ∃ entry ∈ entries, entry.1 = n) (x : Nat → α) :
    vectorFrom n x entries = vectorOf entries n := by
  rw [vectorOf]
  generalize (fun _ => 0 : Nat → α) = y
  induction entries generalizing x y with
  | nil => simp at h
  | cons entry entries ih =>
    obtain ⟨other, hmem, hother⟩ := h
    rw [vectorFrom, vectorFrom, List.foldl_cons, List.foldl_cons]
    by_cases heq : entry.1 = n
    · rw [if_pos heq, if_pos heq]
    · rcases List.mem_cons.1 hmem with rfl | hmem
      · exact absurd hother heq
      · exact ih ⟨other, hmem, hother⟩ _ _

/-- What packing reads of the slot of a node: the node, its width and whether it has a place. -/
def Region.outline {β : Type} (r : Region β) (slot : NodeSlot) : Nat × Nat × Bool :=
  (slot.id, slot.width, (r.place? slot).isSome)

/-- A packed region with places that do not meet, for the nodes that `p` holds of. -/
structure Region.Fits {β : Type} (r : Region β) (l : Layout) (g : Graph α) (p : Nat → Bool)
    (start : Nat → Nat) (total : Nat) : Prop where
  place? : ∀ n < g.numNodes, r.place? (l.nodeOf g n) = if p n then some (start n) else none
  tiles : Layout.Tiles (fun n => n < g.numNodes ∧ p n = true) g.width start total

/-- A packed region without gaps. -/
structure Region.Fills {β : Type} (r : Region β) (l : Layout) (g : Graph α) (p : Nat → Bool)
    (start : Nat → Nat) (total : Nat) : Prop extends r.Fits l g p start total where
  cover : ∀ k < total, ∃ n < g.numNodes, p n = true ∧ start n ≤ k ∧ k < start n + g.width n

namespace Layout

variable {l : Layout} {g : Graph α}

omit [Zero α] in
theorem Fits.inputs (hl : l.Fits g) :
    (Region.inputs : Region α).Fits l g g.isSource l.inputAt l.inputLen :=
  ⟨fun _ _ => rfl, hl.input⟩

omit [Zero α] in
theorem Fits.targets (hl : l.Fits g) (sample : Nat) :
    (Region.targets sample : Region α).Fits l g g.isOutput l.targetAt l.targetLen :=
  ⟨fun _ _ => rfl, hl.target⟩

section Compiled

variable {s : Schedule} {ownership : Ownership} {aux : Nat}

omit [Zero α] in
theorem OfSchedule.inputs (h : OfSchedule g s ownership aux l) (hl : l.Fits g) :
    (Region.inputs : Region α).Fills l g g.isSource l.inputAt l.inputLen :=
  { hl.inputs with cover := fun _ hk => h.input_cover hk }

omit [Zero α] in
theorem OfSchedule.targets (h : OfSchedule g s ownership aux l) (hl : l.Fits g) (sample : Nat) :
    (Region.targets sample : Region α).Fills l g g.isOutput l.targetAt l.targetLen :=
  { hl.targets sample with cover := fun _ hk => h.target_cover hk }

end Compiled

/-- A region without gaps is known by the vectors in the places of the nodes. -/
theorem extract_eq_of_views {r : Region α} {p : Nat → Bool} {start : Nat → Nat}
    {total : Nat} (base base' : Nat) {b b' : Buffer α} (hr : r.Fills l g p start total)
    (hb : base + total ≤ b.size) (hb' : base' + total ≤ b'.size)
    (h : ∀ n < g.numNodes, p n = true → ∀ i < g.width n,
      b.view (base + start n) i = b'.view (base' + start n) i) :
    b.extract base (base + total) = b'.extract base' (base' + total) := by
  refine Buffer.extract_eq hb (by rw [Array.size_extract]; omega) fun k hk => ?_
  obtain ⟨n, hn, hp, hle, hlt⟩ := hr.cover k hk
  have hplace := h n hn hp (k - start n) (by omega)
  rw [Buffer.view_extract hk]
  simp only [Buffer.view, Nat.add_assoc, Nat.add_sub_cancel' hle] at hplace ⊢
  exact hplace

/-! ## Faults -/

section Faults

variable {l' : Layout} {r : Region α} (base base' : Nat)

omit [Zero α] in
theorem outline_eq {p : Nat → Bool} {start : Nat → Nat} {total : Nat} (hl : l.Fits g)
    (hr : r.Fits l g p start total) :
    l.nodes.map r.outline = g.nodeIds.map fun n => (n, g.width n, p n) := by
  rw [hl.nodes_eq, List.map_map]
  refine List.map_congr_left fun n hn => ?_
  rw [Function.comp_apply, Region.outline, hr.place? n (g.mem_nodeIds.1 hn)]
  cases p n <;> rfl

theorem concur_packEntry (h : l.nodes.map r.outline = l'.nodes.map r.outline)
    (entry : Nat × Buffer α) (b b' : Buffer α) :
    Concur (fun _ _ => True) (l.packEntry r base entry b) (l'.packEntry r base' entry b') := by
  have hslot := congrArg (fun slots => slots[entry.1]?) h
  simp only [List.getElem?_map] at hslot
  unfold packEntry
  generalize l.nodes[entry.1]? = slot at hslot ⊢
  generalize l'.nodes[entry.1]? = slot' at hslot ⊢
  rcases slot with - | slot <;> rcases slot' with - | slot'
  · exact .error _
  · simp at hslot
  · simp at hslot
  · obtain ⟨-, hwidth, hplace⟩ : slot.id = slot'.id ∧ slot.width = slot'.width ∧
        (r.place? slot).isSome = (r.place? slot').isSome := by simpa [Region.outline] using hslot
    simp only [hwidth]
    generalize r.place? slot = place at hplace ⊢
    generalize r.place? slot' = place' at hplace ⊢
    rcases place with - | offset <;> rcases place' with - | offset'
    · exact .error _
    · simp at hplace
    · simp at hplace
    · by_cases hsize : entry.2.size = slot'.width
      · simp only [hsize, if_true]
        exact .ok trivial
      · simp only [hsize, if_false]
        exact .error _

/-- Whether packing fails, and how, depends on the nodes that have a place and not on where. -/
theorem fst_packEntries (h : l.nodes.map r.outline = l'.nodes.map r.outline)
    (entries : List (Nat × Buffer α)) (b b' : Buffer α) :
    (l.packEntries r base entries b).1 = (l'.packEntries r base' entries b').1 := by
  induction entries generalizing b b' with
  | nil => rfl
  | cons entry entries ih =>
    rw [packEntries, packEntries]
    have hentry := concur_packEntry base base' h entry b b'
    generalize l.packEntry r base entry b = c at hentry ⊢
    generalize l'.packEntry r base' entry b' = c' at hentry ⊢
    cases hentry with
    | error e => rfl
    | ok _ => exact ih _ _

omit [Zero α] in
theorem missing?_eq (l : Layout) (r : Region α) (entries : List (Nat × Buffer α)) :
    l.missing? r entries = ((l.nodes.map r.outline).find? fun o =>
      o.2.2 && !entries.any fun entry => entry.1 == o.1).map fun o => r.missing o.1 := by
  rw [missing?, List.find?_map, Option.map_map]
  rfl

omit [Zero α] in
theorem missing?_congr (h : l.nodes.map r.outline = l'.nodes.map r.outline)
    (entries : List (Nat × Buffer α)) : l.missing? r entries = l'.missing? r entries := by
  rw [missing?_eq, missing?_eq, h]

theorem fst_pack (h : l.nodes.map r.outline = l'.nodes.map r.outline)
    (entries : List (Nat × Buffer α)) (b b' : Buffer α) :
    (l.pack r base entries b).1 = (l'.pack r base' entries b').1 := by
  have hentries := fst_packEntries base base' h entries b b'
  rw [pack, pack, missing?_congr h]
  generalize l.packEntries r base entries b = c at hentries ⊢
  generalize l'.packEntries r base' entries b' = c' at hentries ⊢
  obtain ⟨fault, c⟩ := c
  obtain ⟨fault', c'⟩ := c'
  obtain rfl : fault = fault' := hentries
  cases fault <;> rfl

/-- The same for the inputs of many samples. -/
theorem concur_packStrides
    (h : l.nodes.map (Region.inputs : Region α).outline =
      l'.nodes.map (Region.inputs : Region α).outline)
    (i : Nat) (samples : List (Sample α)) (b b' : Buffer α) :
    Concur (fun _ _ => True) (l.packStrides i samples b) (l'.packStrides i samples b') := by
  induction samples generalizing i b b' with
  | nil => exact .ok trivial
  | cons sample samples ih =>
    rw [packStrides, packStrides, packInputs, packInputs]
    have hpack := fst_pack (i * l.inputLen) (i * l'.inputLen) h sample.inputs b b'
    generalize l.pack Region.inputs _ sample.inputs b = c at hpack ⊢
    generalize l'.pack Region.inputs _ sample.inputs b' = c' at hpack ⊢
    obtain ⟨fault, c⟩ := c
    obtain ⟨fault', c'⟩ := c'
    obtain rfl : fault = fault' := hpack
    cases fault with
    | some fault => exact .error fault
    | none => exact ih (i + 1) c c'

/-- The same for the samples of a batch. -/
theorem fst_packBatch
    (hinputs : l.nodes.map (Region.inputs : Region α).outline =
      l'.nodes.map (Region.inputs : Region α).outline)
    (htargets : ∀ j, l.nodes.map (Region.targets j : Region α).outline =
      l'.nodes.map (Region.targets j : Region α).outline)
    (i : Nat) (batch : List (Sample α)) (inputs targets inputs' targets' : Buffer α) :
    (l.packBatch i batch inputs targets).1 = (l'.packBatch i batch inputs' targets').1 := by
  induction batch generalizing i inputs targets inputs' targets' with
  | nil => rfl
  | cons sample batch ih =>
    rw [packBatch, packBatch, packInputs, packInputs]
    have hpack := fst_pack (i * l.inputLen) (i * l'.inputLen) hinputs
      sample.inputs inputs inputs'
    generalize l.pack Region.inputs _ sample.inputs inputs = c at hpack ⊢
    generalize l'.pack Region.inputs _ sample.inputs inputs' = c' at hpack ⊢
    obtain ⟨fault, c⟩ := c
    obtain ⟨fault', c'⟩ := c'
    obtain rfl : fault = fault' := hpack
    cases fault with
    | some fault => rfl
    | none =>
      simp only [packTargets]
      have hpack := fst_pack (i * l.targetLen) (i * l'.targetLen) (htargets i)
        sample.targets targets targets'
      generalize l.pack (Region.targets i) _ sample.targets targets = d at hpack ⊢
      generalize l'.pack (Region.targets i) _ sample.targets targets' = d' at hpack ⊢
      obtain ⟨fault, d⟩ := d
      obtain ⟨fault', d'⟩ := d'
      obtain rfl : fault = fault' := hpack
      cases fault with
      | some fault => rfl
      | none => exact ih (i + 1) c d c' d'

end Faults

theorem size_packEntry {r : Region α} {base : Nat} {entry : Nat × Buffer α} {b b' : Buffer α}
    (h : l.packEntry r base entry b = .ok b') : b'.size = b.size := by
  rw [packEntry] at h
  split at h
  · contradiction
  · split at h
    · contradiction
    · split at h
      · obtain rfl := Except.ok.inj h
        exact Buffer.size_write ..
      · contradiction

theorem size_packEntries (l : Layout) (r : Region α) (base : Nat) (entries : List (Nat × Buffer α))
    (b : Buffer α) : (l.packEntries r base entries b).2.size = b.size := by
  induction entries generalizing b with
  | nil => rfl
  | cons entry entries ih =>
    rw [packEntries]
    cases h : l.packEntry r base entry b with
    | error e => rfl
    | ok c => exact (ih c).trans (size_packEntry h)

/-- Packing keeps the size of the region, also when it fails. -/
theorem size_pack (l : Layout) (r : Region α) (base : Nat) (entries : List (Nat × Buffer α))
    (b : Buffer α) :
    (l.pack r base entries b).2.size = b.size := by
  have hsize := size_packEntries l r base entries b
  rw [pack]
  generalize l.packEntries r base entries b = c at hsize ⊢
  obtain ⟨fault, c⟩ := c
  cases fault <;> exact hsize

theorem size_packStrides (l : Layout) (i : Nat) (samples : List (Sample α)) (b b' : Buffer α)
    (h : l.packStrides i samples b = .ok b') : b'.size = b.size := by
  induction samples generalizing i b with
  | nil => exact congrArg Array.size (Except.ok.inj h).symm
  | cons sample samples ih =>
    have hsize := size_pack l Region.inputs (i * l.inputLen) sample.inputs b
    rw [packStrides, packInputs] at h
    split at h
    · contradiction
    · rename_i c hpack
      rw [hpack] at hsize
      exact (ih (i + 1) c h).trans hsize

/-- Packing a batch keeps the sizes of both regions, also when it fails. -/
theorem size_packBatch (l : Layout) (i : Nat) (batch : List (Sample α))
    (inputs targets : Buffer α) : (l.packBatch i batch inputs targets).2.1.size = inputs.size ∧
      (l.packBatch i batch inputs targets).2.2.size = targets.size := by
  induction batch generalizing i inputs targets with
  | nil => exact ⟨rfl, rfl⟩
  | cons sample batch ih =>
    have hinputs := size_pack l Region.inputs (i * l.inputLen) sample.inputs inputs
    have htargets := size_pack l (Region.targets i) (i * l.targetLen) sample.targets targets
    rw [packBatch, packInputs, packTargets]
    generalize l.pack Region.inputs _ sample.inputs inputs = c at hinputs ⊢
    generalize l.pack (Region.targets i) _ sample.targets targets = d at htargets ⊢
    obtain ⟨fault, c⟩ := c
    obtain ⟨fault', d⟩ := d
    cases fault with
    | some fault => exact ⟨hinputs, rfl⟩
    | none =>
      cases fault' with
      | some fault => exact ⟨hinputs, htargets⟩
      | none =>
        obtain ⟨hrest, hrest'⟩ := ih (i + 1) c d
        exact ⟨hrest.trans hinputs, hrest'.trans htargets⟩

/-! ## One sample -/

section Sample

variable {r : Region α} {p : Nat → Bool} {start : Nat → Nat} {total base : Nat}
  {entries : List (Nat × Buffer α)} {b b' : Buffer α}

theorem packEntry_spec {entry : Nat × Buffer α} (hl : l.Fits g) (hr : r.Fits l g p start total)
    (h : l.packEntry r base entry b = .ok b') :
    entry.1 < g.numNodes ∧ p entry.1 = true ∧
      b.write (base + start entry.1) (g.width entry.1) (entry.2.view 0) = b' := by
  rw [packEntry] at h
  by_cases hn : entry.1 < g.numNodes
  · rw [hl.node _ hn] at h
    simp only [hr.place? _ hn] at h
    cases hp : p entry.1 with
    | false => simp [hp] at h
    | true =>
      simp only [hp, if_true] at h
      split at h
      · exact ⟨hn, rfl, Except.ok.inj h⟩
      · contradiction
  · rw [List.getElem?_eq_none (by rw [hl.nodes_length]; omega)] at h
    contradiction

/-- Entries that are packed leave the last vector for a node in the place of the node. -/
theorem packEntries_spec (hl : l.Fits g) (hr : r.Fits l g p start total)
    (hsize : base + total ≤ b.size) (h : l.packEntries r base entries b = (none, b')) :
    (∀ k, k < base ∨ base + total ≤ k → b'[k]? = b[k]?) ∧
      ∀ n < g.numNodes, p n = true → ∀ i < g.width n,
        b'.view (base + start n) i = vectorFrom n (b.view (base + start n)) entries i := by
  induction entries generalizing b with
  | nil =>
    obtain rfl := (Prod.mk.inj h).2
    exact ⟨fun _ _ => rfl, fun _ _ _ _ _ => rfl⟩
  | cons entry entries ih =>
    rw [packEntries] at h
    cases hentry : l.packEntry r base entry b with
    | error e => simp [hentry] at h
    | ok c =>
      simp only [hentry] at h
      obtain ⟨hn, hp, rfl⟩ := packEntry_spec hl hr hentry
      have hle := hr.tiles.le entry.1 ⟨hn, hp⟩
      have hroom : base + start entry.1 + g.width entry.1 ≤ b.size := by omega
      have hfills := Buffer.write_fills hroom (entry.2.view 0)
      obtain ⟨hframe, hview⟩ := ih (hfills.size_eq ▸ hsize) h
      refine ⟨fun k hk => (hframe k hk).trans (hfills.getElem?_eq k (by omega)), ?_⟩
      intro m hm hpm i hi
      rw [hview m hm hpm i hi]
      refine vectorFrom_congr (y := if entry.1 = m then entry.2.view 0 else _) ?_ entries
      by_cases heq : entry.1 = m
      · subst heq
        rw [if_pos rfl]
        exact hfills.view_eq i hi
      · rw [if_neg heq]
        have happart := hr.tiles.disjoint m entry.1 ⟨hm, hpm⟩ ⟨hn, hp⟩ (Ne.symm heq)
        exact hfills.view_of_disjoint (n := g.width m) (by omega) hi

omit [Zero α] in
/-- Nothing is missing if every node with a place has an entry. -/
theorem missing?_eq_none (hl : l.Fits g) (hr : r.Fits l g p start total)
    (entries : List (Nat × Buffer α)) : l.missing? r entries = none ↔
      ∀ n < g.numNodes, p n = true → ∃ entry ∈ entries, entry.1 = n := by
  rw [missing?_eq, outline_eq hl hr, List.find?_map, Option.map_map, Option.map_eq_none_iff,
    Graph.nodeIds, List.find?_range_eq_none]
  refine forall₂_congr fun n _ => ?_
  cases hp : p n <;> simp [hp]

/-- A sample that is packed leaves the vectors given for the nodes in their places. -/
theorem pack_spec (hl : l.Fits g) (hr : r.Fits l g p start total)
    (hsize : base + total ≤ b.size) (h : l.pack r base entries b = (none, b')) :
    (∀ k, k < base ∨ base + total ≤ k → b'[k]? = b[k]?) ∧
      ∀ n < g.numNodes, p n = true → ∀ i < g.width n,
        b'.view (base + start n) i = vectorOf entries n i := by
  rw [pack] at h
  split at h
  · simp at h
  · rename_i c hentries
    obtain ⟨hmissing, rfl⟩ := Prod.mk.inj h
    obtain ⟨hframe, hview⟩ := packEntries_spec hl hr hsize hentries
    refine ⟨hframe, fun n hn hp i hi => ?_⟩
    rw [hview n hn hp i hi,
      vectorFrom_eq_vectorOf ((missing?_eq_none hl hr entries).1 hmissing n hn hp)]

/-- A sample that is packed leaves what stands wherever its vectors are in the places of the
nodes, and nothing of what was there before. -/
theorem eq_extract_of_pack (base : Nat) {c b' : Buffer α} (hl : l.Fits g)
    (hr : r.Fills l g p start total) (hb : b.size = total)
    (h : l.pack r 0 entries b = (none, c)) (hroom : base + total ≤ b'.size)
    (hview : ∀ n < g.numNodes, p n = true → ∀ i < g.width n,
      b'.view (base + start n) i = vectorOf entries n i) :
    c = b'.extract base (base + total) := by
  have hsize : c.size = total := by simpa only [h, hb] using size_pack l r 0 entries b
  have hpacked := (pack_spec hl hr.toFits (by omega) h).2
  have hextract := extract_eq_of_views 0 base hr (by omega) hroom fun n hn hp i hi =>
    (hpacked n hn hp i hi).trans (hview n hn hp i hi).symm
  rwa [Nat.zero_add, ← hsize, Array.extract_size, hsize] at hextract

/-- A sample that is packed leaves the same region whatever the region held before. -/
theorem eq_of_pack {entries' : List (Nat × Buffer α)} {c c' : Buffer α} (hl : l.Fits g)
    (hr : r.Fills l g p start total) (hb : b.size = total) (hb' : b'.size = total)
    (h : l.pack r 0 entries b = (none, c)) (h' : l.pack r 0 entries' b' = (none, c'))
    (hentries : ∀ n, vectorOf entries n = vectorOf entries' n) : c = c' := by
  have hsize' : c'.size = total := by simpa only [h', hb'] using size_pack l r 0 entries' b'
  have hpacked' := (pack_spec hl hr.toFits (by omega) h').2
  have hextract := eq_extract_of_pack 0 hl hr hb h (by omega) fun n hn hp i hi =>
    (hpacked' n hn hp i hi).trans (congrFun (hentries n).symm i)
  rwa [Nat.zero_add, ← hsize', Array.extract_size] at hextract

/-! ## Batches -/

/-- From the `i`th stride on, a region holds the vectors of a batch, those of one sample in each
stride. The strides before are as they were. -/
structure Strides (g : Graph α) (p : Nat → Bool) (start : Nat → Nat) (total i : Nat)
    (batch : List (List (Nat × Buffer α))) (b b' : Buffer α) : Prop where
  early : ∀ k < i * total, b'[k]? = b[k]?
  view : ∀ {j entries}, batch[j]? = some entries → ∀ n < g.numNodes, p n = true →
    ∀ c < g.width n, b'.view ((i + j) * total) (start n + c) = vectorOf entries n c

/-- One more sample, in the stride before the others. -/
theorem Strides.cons (hl : l.Fits g) (hr : r.Fits l g p start total) {i : Nat} {c : Buffer α}
    {batch : List (List (Nat × Buffer α))} (hsize : (i + 1) * total ≤ b.size)
    (hpack : l.pack r (i * total) entries b = (none, c))
    (h : Strides g p start total (i + 1) batch c b') :
    Strides g p start total i (entries :: batch) b b' := by
  have hnext : (i + 1) * total = i * total + total := Nat.succ_mul i total
  obtain ⟨hframe, hview⟩ := pack_spec hl hr (hnext ▸ hsize) hpack
  refine ⟨fun k hk => ?_, fun {j other} hj n hn hp k hk => ?_⟩
  · rw [h.early k (by omega), hframe k (.inl hk)]
  · cases j with
    | zero =>
      obtain rfl := Option.some.inj hj
      have hle := hr.tiles.le n ⟨hn, hp⟩
      rw [← hview n hn hp k hk, Nat.add_zero]
      simp only [Buffer.view, Array.getD_eq_getD_getElem?, Nat.add_assoc]
      rw [h.early _ (by omega)]
    | succ j =>
      rw [show i + (j + 1) = i + 1 + j by omega]
      exact h.view hj n hn hp k hk

end Sample

/-- Samples that are packed leave their input vectors in strides of their own. -/
theorem packStrides_spec (hl : l.Fits g) {i : Nat} {samples : List (Sample α)} {b b' : Buffer α}
    (hsize : (i + samples.length) * l.inputLen ≤ b.size)
    (h : l.packStrides i samples b = .ok b') :
    Strides g g.isSource l.inputAt l.inputLen i (samples.map Sample.inputs) b b' := by
  induction samples generalizing i b with
  | nil =>
    obtain rfl := Except.ok.inj h
    exact ⟨fun _ _ => rfl, fun hj => by simp at hj⟩
  | cons sample samples ih =>
    have hlength : i + (sample :: samples).length = i + 1 + samples.length := by
      rw [List.length_cons]
      omega
    have hfirst : (i + 1) * l.inputLen ≤ (i + 1 + samples.length) * l.inputLen :=
      Nat.mul_le_mul_right _ (Nat.le_add_right ..)
    rw [hlength] at hsize
    have hkept := size_pack l Region.inputs (i * l.inputLen) sample.inputs b
    rw [packStrides, packInputs] at h
    split at h
    · contradiction
    · rename_i c hpack
      rw [hpack] at hkept
      exact (ih (hkept ▸ hsize) h).cons hl hl.inputs (hfirst.trans hsize) hpack

/-- A batch that is packed leaves the vectors of every sample in the strides of the sample. -/
theorem packBatch_spec (hl : l.Fits g) {i : Nat} {batch : List (Sample α)}
    {inputs targets inputs' targets' : Buffer α}
    (hinputs : (i + batch.length) * l.inputLen ≤ inputs.size)
    (htargets : (i + batch.length) * l.targetLen ≤ targets.size)
    (h : l.packBatch i batch inputs targets = (none, inputs', targets')) :
    Strides g g.isSource l.inputAt l.inputLen i (batch.map Sample.inputs) inputs inputs' ∧
      Strides g g.isOutput l.targetAt l.targetLen i (batch.map Sample.targets) targets
        targets' := by
  induction batch generalizing i inputs targets with
  | nil =>
    obtain ⟨-, hpair⟩ := Prod.mk.inj h
    obtain ⟨rfl, rfl⟩ := Prod.mk.inj hpair
    exact ⟨⟨fun _ _ => rfl, fun hj => by simp at hj⟩, ⟨fun _ _ => rfl, fun hj => by simp at hj⟩⟩
  | cons sample batch ih =>
    have hlength : i + (sample :: batch).length = i + 1 + batch.length := by
      rw [List.length_cons]
      omega
    have hfirst : ∀ m, (i + 1) * m ≤ (i + 1 + batch.length) * m :=
      fun m => Nat.mul_le_mul_right m (Nat.le_add_right ..)
    rw [hlength] at hinputs htargets
    rw [packBatch] at h
    split at h
    · simp at h
    · rename_i inputs₁ hpackInputs
      split at h
      · simp at h
      · rename_i targets₁ hpackTargets
        rw [packInputs] at hpackInputs
        rw [packTargets] at hpackTargets
        have hsizeInputs : inputs₁.size = inputs.size := by
          have hsize := size_pack l Region.inputs (i * l.inputLen) sample.inputs inputs
          rwa [hpackInputs] at hsize
        have hsizeTargets : targets₁.size = targets.size := by
          have hsize := size_pack l (Region.targets i) (i * l.targetLen) sample.targets targets
          rwa [hpackTargets] at hsize
        obtain ⟨hlaterInputs, hlaterTargets⟩ :=
          ih (hsizeInputs ▸ hinputs) (hsizeTargets ▸ htargets) h
        exact ⟨hlaterInputs.cons hl hl.inputs ((hfirst _).trans hinputs) hpackInputs,
          hlaterTargets.cons hl (hl.targets i) ((hfirst _).trans htargets) hpackTargets⟩

end Layout

end GraphTape
