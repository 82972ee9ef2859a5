import GraphTape.Proofs.Engine.Packing

/-!
# Faults of samples

Entries are read in order, and the first one that is wrong is reported. If none is, the first node
that is left out is. Which report this is can be said without packing anything: it depends on the
graph and on the entries alone. A batch is reported for its first bad sample, and a sample for its
inputs before its targets.

* `Graph.Misfit`: what is wrong with an entry.
* `Graph.Covered`, `Graph.Blames`: entries without a fault, and the fault of the others.
* `Layout.fst_pack_eq_none`, `Layout.fst_pack_eq_some_iff`: packing finds this fault.
* `Graph.BlamesFirst`, `Layout.fst_packBatch_eq_some_iff`: the same for a batch.
-/

namespace GraphTape

/-- A list splits at a member after members that satisfy `P`, either at its head or, if the head
satisfies `P`, where its tail does. -/
theorem exists_append_cons_iff {ι : Type} {P : ι → Prop} {Q : Nat → ι → Prop} (x : ι)
    (xs : List ι) :
    (∃ front y back, x :: xs = front ++ y :: back ∧ (∀ z ∈ front, P z) ∧ Q front.length y) ↔
      Q 0 x ∨ P x ∧
        ∃ front y back, xs = front ++ y :: back ∧ (∀ z ∈ front, P z) ∧ Q (front.length + 1) y := by
  constructor
  · rintro ⟨front, y, back, hsplit, hfront, hy⟩
    cases front with
    | nil =>
      obtain ⟨rfl, rfl⟩ := List.cons.inj hsplit
      exact .inl hy
    | cons z front =>
      obtain ⟨rfl, rfl⟩ := List.cons.inj hsplit
      rw [List.forall_mem_cons] at hfront
      exact .inr ⟨hfront.1, front, y, back, rfl, hfront.2, hy⟩
  · rintro (hx | ⟨hx, front, y, back, rfl, hfront, hy⟩)
    · exact ⟨[], x, xs, rfl, by simp, hx⟩
    · exact ⟨x :: front, y, back, rfl, List.forall_mem_cons.2 ⟨hx, hfront⟩, hy⟩

variable {α : Type} {g : Graph α}

namespace Graph

/-- An entry is for a node that `p` holds of, and as wide as the node. -/
def Takes (g : Graph α) (p : Nat → Bool) (entry : Nat × Buffer α) : Prop :=
  entry.1 < g.numNodes ∧ p entry.1 = true ∧ entry.2.size = g.width entry.1

instance (g : Graph α) (p : Nat → Bool) (entry : Nat × Buffer α) : Decidable (g.Takes p entry) :=
  inferInstanceAs (Decidable (_ ∧ _ ∧ _))

/-- Every entry is for a node that `p` holds of and as wide as the node, and every such node has
an entry. -/
structure Covered (g : Graph α) (p : Nat → Bool) (entries : List (Nat × Buffer α)) :
    Prop where
  fits : ∀ entry ∈ entries,
    entry.1 < g.numNodes ∧ p entry.1 = true ∧ entry.2.size = g.width entry.1
  covers : ∀ n < g.numNodes, p n = true → ∃ entry ∈ entries, entry.1 = n

/-- A sample has vectors for the sources and targets for the outputs. -/
structure Accepts (g : Graph α) (sample : Sample α) : Prop where
  inputs : g.Covered g.isSource sample.inputs
  targets : g.Covered g.isOutput sample.targets

/-- What is wrong with an entry. -/
inductive Misfit (g : Graph α) (r : Region α) (p : Nat → Bool) :
    Nat × Buffer α → Error α → Prop
  | unknown {n : Nat} {x : Buffer α} (hn : g.numNodes ≤ n) : Misfit g r p (n, x) (.unknownNode n)
  | unexpected {n : Nat} {x : Buffer α} (hn : n < g.numNodes) (hp : p n = false) :
      Misfit g r p (n, x) (r.unexpected n)
  | width {n : Nat} {x : Buffer α} (hn : n < g.numNodes) (hp : p n = true)
      (hx : x.size ≠ g.width n) : Misfit g r p (n, x) (.inputWidth n (g.width n) x.size)

/-- What is reported of entries: the first one that is wrong, or if there is none the first node
that is left out. -/
inductive Blames (g : Graph α) (r : Region α) (p : Nat → Bool) (entries : List (Nat × Buffer α)) :
    Error α → Prop
  | misfit {front back : List (Nat × Buffer α)} {bad : Nat × Buffer α} {fault : Error α}
      (hsplit : entries = front ++ bad :: back) (hfront : ∀ entry ∈ front, g.Takes p entry)
      (hbad : g.Misfit r p bad fault) : Blames g r p entries fault
  | missing {n : Nat} (hfits : ∀ entry ∈ entries, g.Takes p entry) (hn : n < g.numNodes)
      (hp : p n = true) (hmissing : ∀ entry ∈ entries, entry.1 ≠ n)
      (hfirst : ∀ m < n, p m = true → ∃ entry ∈ entries, entry.1 = m) :
      Blames g r p entries (r.missing n)

/-- What is reported of the sample at position `i`. -/
def BlamesSample (g : Graph α) (i : Nat) (sample : Sample α) (fault : Error α) : Prop :=
  g.Blames .inputs g.isSource sample.inputs fault ∨
    g.Covered g.isSource sample.inputs ∧ g.Blames (.targets i) g.isOutput sample.targets fault

/-- What is reported of a batch whose samples are counted from `i`: what is reported of its first
bad sample. -/
def BlamesFirst (g : Graph α) (i : Nat) (batch : List (Sample α)) (fault : Error α) : Prop :=
  ∃ front sample back, batch = front ++ sample :: back ∧ (∀ other ∈ front, g.Accepts other) ∧
    g.BlamesSample (i + front.length) sample fault

variable {r : Region α} {p : Nat → Bool} {entries : List (Nat × Buffer α)}

theorem Misfit.not_takes {entry : Nat × Buffer α} {fault : Error α}
    (h : g.Misfit r p entry fault) : ¬ g.Takes p entry := by
  rintro ⟨hn', hp', hx'⟩
  cases h with
  | unknown hn => exact absurd hn' (Nat.not_lt.2 hn)
  | unexpected hn hp => simp [hp] at hp'
  | width hn hp hx => exact hx hx'

theorem exists_misfit (r : Region α) {entry : Nat × Buffer α} (h : ¬ g.Takes p entry) :
    ∃ fault, g.Misfit r p entry fault := by
  obtain ⟨n, x⟩ := entry
  by_cases hn : n < g.numNodes
  · cases hp : p n with
    | false => exact ⟨_, .unexpected hn hp⟩
    | true => exact ⟨_, .width hn hp fun hx => h ⟨hn, hp, hx⟩⟩
  · exact ⟨_, .unknown (Nat.not_lt.1 hn)⟩

/-- There is nothing to report of entries without a fault. -/
theorem Blames.not_covered {fault : Error α} (h : g.Blames r p entries fault) :
    ¬ g.Covered p entries := by
  intro hcovered
  cases h with
  | misfit hsplit hfront hbad =>
    exact hbad.not_takes (hcovered.fits _ (by simp [hsplit]))
  | missing hfits hn hp hmissing hfirst =>
    obtain ⟨entry, hentry, heq⟩ := hcovered.covers _ hn hp
    exact hmissing entry hentry heq

theorem BlamesSample.not_accepts {i : Nat} {sample : Sample α} {fault : Error α}
    (h : g.BlamesSample i sample fault) : ¬ g.Accepts sample := by
  rintro ⟨hinputs, htargets⟩
  rcases h with hblames | ⟨-, hblames⟩
  · exact hblames.not_covered hinputs
  · exact hblames.not_covered htargets

theorem blamesFirst_cons {i : Nat} {sample : Sample α} {batch : List (Sample α)}
    {fault : Error α} : g.BlamesFirst i (sample :: batch) fault ↔
      g.BlamesSample i sample fault ∨ g.Accepts sample ∧ g.BlamesFirst (i + 1) batch fault := by
  have hfirst := exists_append_cons_iff (P := g.Accepts)
    (Q := fun k other => g.BlamesSample (i + k) other fault) sample batch
  simpa only [BlamesFirst, Nat.add_zero, Nat.add_assoc, Nat.add_comm 1] using hfirst

end Graph

/-! ## What packing reports -/

namespace Layout

variable [Zero α] {l : Layout} {r : Region α} {p : Nat → Bool} {start : Nat → Nat} {total : Nat}
  {fault : Error α}

theorem exists_packEntry_iff (hl : l.Fits g) (hr : r.Fits l g p start total) (base : Nat)
    (entry : Nat × Buffer α) (b : Buffer α) :
    (∃ b', l.packEntry r base entry b = .ok b') ↔ g.Takes p entry := by
  rw [packEntry, Graph.Takes]
  by_cases hn : entry.1 < g.numNodes
  · have hwidth : (l.nodeOf g entry.1).width = g.width entry.1 := rfl
    rw [hl.node _ hn]
    simp only [hr.place? _ hn, hn, true_and]
    cases p entry.1 with
    | false => simp
    | true =>
      simp only [if_true, true_and, hwidth]
      split <;> simp [*]
  · rw [List.getElem?_eq_none (by rw [hl.nodes_length]; omega)]
    simp [hn]

theorem packEntry_of_misfit (hl : l.Fits g) (hr : r.Fits l g p start total) (base : Nat)
    {entry : Nat × Buffer α} (b : Buffer α) (h : g.Misfit r p entry fault) :
    l.packEntry r base entry b = .error fault := by
  cases h with
  | unknown hn => rw [packEntry, List.getElem?_eq_none (hl.nodes_length ▸ hn)]
  | unexpected hn hp =>
    rw [packEntry, hl.node _ hn]
    simp only [hr.place? _ hn, hp, Bool.false_eq_true, if_false]
  | width hn hp hx =>
    rw [packEntry, hl.node _ hn]
    simp only [hr.place? _ hn, hp, if_true]
    exact if_neg hx

theorem packEntry_eq_error_iff (hl : l.Fits g) (hr : r.Fits l g p start total) (base : Nat)
    (entry : Nat × Buffer α) (b : Buffer α) :
    l.packEntry r base entry b = .error fault ↔ g.Misfit r p entry fault := by
  refine ⟨fun h => ?_, packEntry_of_misfit hl hr base b⟩
  have hbad : ¬ g.Takes p entry := fun htakes => by
    obtain ⟨b', hb'⟩ := (exists_packEntry_iff hl hr base entry b).2 htakes
    exact absurd (h.symm.trans hb') (by simp)
  obtain ⟨found, hfound⟩ := Graph.exists_misfit r hbad
  obtain rfl := Except.error.inj (h.symm.trans (packEntry_of_misfit hl hr base b hfound))
  exact hfound

theorem fst_packEntries_eq_none (hl : l.Fits g) (hr : r.Fits l g p start total) (base : Nat)
    (entries : List (Nat × Buffer α)) (b : Buffer α) :
    (l.packEntries r base entries b).1 = none ↔ ∀ entry ∈ entries, g.Takes p entry := by
  induction entries generalizing b with
  | nil => simp [packEntries]
  | cons entry entries ih =>
    rw [packEntries, List.forall_mem_cons, ← exists_packEntry_iff hl hr base entry b]
    cases l.packEntry r base entry b with
    | error e => simp
    | ok c => simp [ih]

theorem fst_packEntries_eq_some_iff (hl : l.Fits g) (hr : r.Fits l g p start total) (base : Nat)
    (entries : List (Nat × Buffer α)) (b : Buffer α) (fault : Error α) :
    (l.packEntries r base entries b).1 = some fault ↔
      ∃ front bad back, entries = front ++ bad :: back ∧ (∀ entry ∈ front, g.Takes p entry) ∧
        g.Misfit r p bad fault := by
  induction entries generalizing b with
  | nil => simp [packEntries]
  | cons entry entries ih =>
    have hfirst := exists_append_cons_iff (P := g.Takes p)
      (Q := fun _ bad => g.Misfit r p bad fault) entry entries
    rw [hfirst, packEntries, ← exists_packEntry_iff hl hr base entry b,
      ← packEntry_eq_error_iff hl hr base entry b]
    cases l.packEntry r base entry b with
    | error e => simp
    | ok c => simp [ih c]

omit [Zero α] in
/-- Of the nodes that are left out, the first one is missing. -/
theorem missing?_eq_some_iff (hl : l.Fits g) (hr : r.Fits l g p start total)
    (entries : List (Nat × Buffer α)) (fault : Error α) : l.missing? r entries = some fault ↔
      ∃ n < g.numNodes, p n = true ∧ (∀ entry ∈ entries, entry.1 ≠ n) ∧
        (∀ m < n, p m = true → ∃ entry ∈ entries, entry.1 = m) ∧ r.missing n = fault := by
  rw [missing?_eq, outline_eq hl hr, List.find?_map, Option.map_map, Option.map_eq_some_iff,
    Graph.nodeIds]
  simp only [List.find?_range_eq_some, Function.comp_apply, List.mem_range, Bool.and_eq_true,
    Bool.not_eq_true', List.any_eq_false, beq_iff_eq, Bool.and_eq_false_iff]
  constructor
  · rintro ⟨n, ⟨⟨hp, hmissing⟩, hn, hbefore⟩, rfl⟩
    refine ⟨n, hn, hp, hmissing, fun m hm hpm => ?_, rfl⟩
    simpa [hpm] using hbefore m hm
  · rintro ⟨n, hn, hp, hmissing, hfirst, rfl⟩
    refine ⟨n, ⟨⟨hp, hmissing⟩, hn, fun m hm => ?_⟩, rfl⟩
    cases hpm : p m with
    | false => simp
    | true => simpa using hfirst m hm hpm

/-- Entries are packed exactly if they cover the nodes that have a place. -/
theorem fst_pack_eq_none (hl : l.Fits g) (hr : r.Fits l g p start total) (base : Nat)
    (entries : List (Nat × Buffer α)) (b : Buffer α) :
    (l.pack r base entries b).1 = none ↔ g.Covered p entries := by
  have hentries := fst_packEntries_eq_none hl hr base entries b
  have hmissing := missing?_eq_none hl hr entries
  rw [pack]
  generalize l.packEntries r base entries b = c at hentries ⊢
  obtain ⟨fault, c⟩ := c
  cases fault with
  | some fault =>
    refine ⟨fun h => by simp at h, fun h => ?_⟩
    exact absurd (hentries.2 h.fits) (by simp)
  | none => exact ⟨fun h => ⟨hentries.1 rfl, hmissing.1 h⟩, fun h => hmissing.2 h.covers⟩

/-- Entries that are not packed are reported for the first of them that is wrong, or for the first
node that is left out. -/
theorem fst_pack_eq_some_iff (hl : l.Fits g) (hr : r.Fits l g p start total) (base : Nat)
    (entries : List (Nat × Buffer α)) (b : Buffer α) (fault : Error α) :
    (l.pack r base entries b).1 = some fault ↔ g.Blames r p entries fault := by
  have hnone := fst_packEntries_eq_none hl hr base entries b
  have hsome := fst_packEntries_eq_some_iff hl hr base entries b
  have hmissing := missing?_eq_some_iff hl hr entries fault
  rw [pack]
  generalize l.packEntries r base entries b = c at hnone hsome ⊢
  obtain ⟨found, c⟩ := c
  cases found with
  | some found =>
    refine ⟨fun h => ?_, fun h => ?_⟩
    · obtain rfl := Option.some.inj h
      obtain ⟨front, bad, back, hsplit, hfront, hbad⟩ := (hsome found).1 rfl
      exact .misfit hsplit hfront hbad
    · cases h with
      | misfit hsplit hfront hbad => exact (hsome fault).2 ⟨_, _, _, hsplit, hfront, hbad⟩
      | missing hfits => exact absurd (hnone.2 hfits) (by simp)
  | none =>
    refine ⟨fun h => ?_, fun h => ?_⟩
    · obtain ⟨n, hn, hp, hleft, hfirst, rfl⟩ := hmissing.1 h
      exact .missing (hnone.1 rfl) hn hp hleft hfirst
    · cases h with
      | misfit hsplit hfront hbad =>
        exact absurd ((hsome fault).2 ⟨_, _, _, hsplit, hfront, hbad⟩) (by simp)
      | missing hfits hn hp hleft hfirst => exact hmissing.2 ⟨_, hn, hp, hleft, hfirst, rfl⟩

/-- A batch is packed exactly if all of its samples are accepted, and what is reported of one that
is not is about its first bad sample. -/
theorem fst_packBatch_iff (hl : l.Fits g) (i : Nat) (batch : List (Sample α))
    (inputs targets : Buffer α) :
    ((l.packBatch i batch inputs targets).1 = none ↔ ∀ sample ∈ batch, g.Accepts sample) ∧
      ∀ fault, (l.packBatch i batch inputs targets).1 = some fault ↔
        g.BlamesFirst i batch fault := by
  induction batch generalizing i inputs targets with
  | nil => simp [packBatch, Graph.BlamesFirst]
  | cons sample batch ih =>
    have hinputs := fst_pack_eq_none hl hl.inputs (i * l.inputLen) sample.inputs inputs
    have hinputs' := fst_pack_eq_some_iff hl hl.inputs (i * l.inputLen) sample.inputs inputs
    have htargets := fst_pack_eq_none hl (hl.targets i) (i * l.targetLen) sample.targets targets
    have htargets' := fst_pack_eq_some_iff hl (hl.targets i) (i * l.targetLen) sample.targets
      targets
    have haccepts : g.Accepts sample ↔
        g.Covered g.isSource sample.inputs ∧ g.Covered g.isOutput sample.targets :=
      ⟨fun h => ⟨h.inputs, h.targets⟩, fun h => ⟨h.1, h.2⟩⟩
    simp only [Graph.blamesFirst_cons, Graph.BlamesSample, List.forall_mem_cons, haccepts,
      ← hinputs, ← hinputs', ← htargets, ← htargets', packBatch, packInputs, packTargets]
    rcases l.pack Region.inputs (i * l.inputLen) sample.inputs inputs with ⟨fault, c⟩
    rcases l.pack (Region.targets i) (i * l.targetLen) sample.targets targets with ⟨fault', d⟩
    cases fault with
    | some fault => simp
    | none =>
      cases fault' with
      | some fault => simp
      | none => simpa using ih (i + 1) c d

end Layout

end GraphTape
