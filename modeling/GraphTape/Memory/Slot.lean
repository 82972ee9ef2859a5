import GraphTape.Graph.Basic

/-!
# Slots

Where parameters live. Blocks are laid end to end by `packed`; a parameter's `Slot` gives its
place in the state buffers and its place in the flat vector of all parameters, by which
gradients and optimizer state are indexed.
-/

namespace GraphTape

/-- How a compiled graph holds its parameters. -/
inductive Ownership where
  /-- In a private buffer, written back to the host on request. -/
  | copy
  /-- In the storage of the host tensors themselves. -/
  | reference
  deriving DecidableEq

instance : Inhabited Ownership := ⟨.copy⟩

/-- The place of one parameter. -/
structure Slot where
  /-- The state buffer that holds the values. -/
  buffer : Nat
  /-- The first element within that buffer. -/
  offset : Nat
  /-- The first element within the flat vector of all parameters. -/
  flat : Nat
  /-- The number of elements. -/
  len : Nat
  deriving DecidableEq, Inhabited

/-- The part of a slot that starts at element `start` and has `len` elements. -/
def Slot.narrow (s : Slot) (start len : Nat) : Slot :=
  { s with offset := s.offset + start, flat := s.flat + start, len }

/-- Blocks laid end to end from `start`: every key with the offset of its block. -/
def packed {κ : Type} (size : κ → Nat) : Nat → List κ → List (κ × Nat)
  | _, [] => []
  | start, k :: ks => (k, start) :: packed size (start + size k) ks

/-- The number of elements that blocks laid end to end take up. -/
def packedLength {κ : Type} (size : κ → Nat) : List κ → Nat
  | [] => 0
  | k :: ks => size k + packedLength size ks

/-- Where tensors are stored, from the `i`th tensor on: the state buffer of each, and its first
element in that buffer. Copies go to one private buffer, which is filled with `filled` elements so
far; under reference each tensor is a buffer of its own. -/
def locations (ownership : Ownership) (i filled : Nat) (tensors : List Tensor) : List (Nat × Nat) :=
  match ownership with
  | .copy => (packed Tensor.count filled tensors).map fun (_, offset) => (0, offset)
  | .reference => (List.range' i tensors.length).map fun buffer => (buffer, 0)

/-- The slots of tensors that are stored at the given locations, from the flat offset `flat` on. -/
def slotsFrom (flat : Nat) : List Tensor → List (Nat × Nat) → List Slot
  | t :: ts, (buffer, offset) :: stored =>
    { buffer, offset, flat, len := t.count } :: slotsFrom (flat + t.count) ts stored
  | _, _ => []

/-- The slots of tensors in flat order. -/
def slots (ownership : Ownership) (tensors : List Tensor) : List Slot :=
  slotsFrom 0 tensors (locations ownership 0 0 tensors)

/-- The parameters of a graph in flat order, each with its slot. -/
def Graph.slots {α : Type} (g : Graph α) (ownership : Ownership) : List (Owner × Slot) :=
  (g.parameters.map Prod.fst).zip (GraphTape.slots ownership (g.parameters.map Prod.snd))

end GraphTape
