import GraphTape.Error.Basic
import GraphTape.Memory.Layout

/-!
# Samples

The vectors a call is given for the nodes of a graph, and how they are packed. Entries are
written in the order given, so the last entry for a node counts. Packing ends at the first bad
entry; when there is none, the first node without an entry is at fault.

* `Layout.packInputs`, `Layout.packTargets`: one sample, written from a base offset on.
* `Layout.packStrides`: the inputs of many samples, one stride each.
* `Layout.packBatch`: the samples of a batch, one stride each.
-/

namespace GraphTape

/-- Input vectors for source nodes and target vectors for output nodes. -/
structure Sample (α : Type) where
  inputs : List (Nat × Buffer α) := []
  targets : List (Nat × Buffer α) := []
  deriving Inhabited

/-- A packed region: which nodes have a place in it, and what is reported of the others and of
those that are left out. -/
structure Region (α : Type) where
  place? : NodeSlot → Option Nat
  unexpected : Nat → Error α
  missing : Nat → Error α

/-- The packed inputs, with a place for every source node. -/
def Region.inputs {α : Type} : Region α := ⟨NodeSlot.input, .unexpectedInput, .missingInput⟩

/-- The packed targets of a sample, with a place for every output node. -/
def Region.targets {α : Type} (sample : Nat) : Region α :=
  ⟨NodeSlot.target, .unexpectedTarget sample, .missingTarget sample⟩

namespace Layout

variable {α : Type} [Zero α]

/-- Writes the vector of one entry to its place, counted from `base`. -/
def packEntry (l : Layout) (r : Region α) (base : Nat) (entry : Nat × Buffer α) (b : Buffer α) :
    Except (Error α) (Buffer α) :=
  match l.nodes[entry.1]? with
  | none => .error (.unknownNode entry.1)
  | some slot =>
    match r.place? slot with
    | none => .error (r.unexpected entry.1)
    | some offset =>
      if entry.2.size = slot.width then
        .ok (b.write (base + offset) slot.width (entry.2.view 0))
      else .error (.inputWidth entry.1 slot.width entry.2.size)

/-- Writes entries in order up to the first bad one. -/
def packEntries (l : Layout) (r : Region α) (base : Nat) :
    List (Nat × Buffer α) → Buffer α → Option (Error α) × Buffer α
  | [], b => (none, b)
  | entry :: entries, b =>
    match l.packEntry r base entry b with
    | .error fault => (some fault, b)
    | .ok b => packEntries l r base entries b

/-- The first node that has a place in the region and no entry. -/
def missing? (l : Layout) (r : Region α) (entries : List (Nat × Buffer α)) : Option (Error α) :=
  (l.nodes.find? fun slot =>
    (r.place? slot).isSome && !entries.any fun entry => entry.1 == slot.id).map
      fun slot => r.missing slot.id

/-- Writes the vectors of one sample. Returns the first fault, with the buffer as it was left. -/
def pack (l : Layout) (r : Region α) (base : Nat) (entries : List (Nat × Buffer α))
    (b : Buffer α) : Option (Error α) × Buffer α :=
  match l.packEntries r base entries b with
  | (some fault, b) => (some fault, b)
  | (none, b) => (l.missing? r entries, b)

/-- Writes the input vectors of one sample. -/
def packInputs (l : Layout) (base : Nat) (s : Sample α) (b : Buffer α) :
    Option (Error α) × Buffer α :=
  l.pack .inputs base s.inputs b

/-- Writes the target vectors of the sample with the given index in its batch. -/
def packTargets (l : Layout) (index base : Nat) (s : Sample α) (b : Buffer α) :
    Option (Error α) × Buffer α :=
  l.pack (.targets index) base s.targets b

/-- Writes the inputs of samples from the `i`th stride on, up to the first fault. -/
def packStrides (l : Layout) : Nat → List (Sample α) → Buffer α → Except (Error α) (Buffer α)
  | _, [], b => .ok b
  | i, s :: samples, b =>
    match l.packInputs (i * l.inputLen) s b with
    | (some fault, _) => .error fault
    | (none, b) => packStrides l (i + 1) samples b

/-- Writes the samples of a batch from the `i`th stride on, each with its inputs first. Returns
the first fault, with both buffers as they were left. -/
def packBatch (l : Layout) : Nat → List (Sample α) → Buffer α → Buffer α →
    Option (Error α) × Buffer α × Buffer α
  | _, [], inputs, targets => (none, inputs, targets)
  | i, s :: samples, inputs, targets =>
    match l.packInputs (i * l.inputLen) s inputs with
    | (some fault, inputs) => (some fault, inputs, targets)
    | (none, inputs) =>
      match l.packTargets i (i * l.targetLen) s targets with
      | (some fault, targets) => (some fault, inputs, targets)
      | (none, targets) => packBatch l (i + 1) samples inputs targets

end Layout

end GraphTape
