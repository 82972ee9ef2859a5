import GraphTape.Buffer.Basic
import GraphTape.Memory.Slot

/-!
# Parameter stores

The live values of the parameters. A store either owns one buffer, filled with copies of the
host tensors, or shares the storage of the host tensors. Every parameter needs storage of its
own: `Store.place` refuses tensors that share a cell.

* `Store.view`, `Store.read`: the values in a slot.
* `Store.update`: a change of the values in a slot, which reaches the host if it is shared.
* `Store.sync`, `Store.reload`: copying to and from the host; a shared store has nothing to copy.
-/

namespace GraphTape

/-- The live parameter values of a compiled graph. -/
inductive Store (α : Type) where
  /-- A private buffer, and the host tensors with the offsets their values were copied to. -/
  | owned (buffer : Buffer α) (hosts : List (Tensor × Nat))
  /-- One host tensor for each state buffer. -/
  | shared (tensors : List Tensor)

namespace Store

variable {α : Type}

/-- How the store holds its values. -/
def ownership : Store α → Ownership
  | owned .. => .copy
  | shared .. => .reference

/-- The first tensor before position `i` that shares its storage with `t`. -/
def twin? (tensors : List Tensor) (i : Nat) (t : Tensor) : Option Nat :=
  (tensors.take i).findIdx? (·.sameStorage t)

/-- The first position whose tensor shares its storage with an earlier one, after the position
of the earlier one. -/
def sharedPair? (tensors : List Tensor) : Option (Nat × Nat) :=
  tensors.zipIdx.findSome? fun (t, i) => (twin? tensors i t).map fun first => (first, i)

/-- The store of tensors in flat order. -/
def place (ownership : Ownership) (h : Host α) (tensors : List Tensor) :
    Except (Error α) (Store α) :=
  match sharedPair? tensors with
  | some (first, second) => .error (.sharedStorage first second)
  | none =>
    match ownership with
    | .copy =>
      .ok (owned (tensors.foldl (fun b t => b ++ h.read t) #[]) (packed Tensor.count 0 tensors))
    | .reference => .ok (shared tensors)

variable [Zero α]

/-- The values in a slot, by their index within the slot. -/
def view (s : Store α) (h : Host α) (slot : Slot) : Nat → α :=
  match s with
  | owned buffer _ => buffer.view slot.offset
  | shared tensors =>
    match tensors[slot.buffer]? with
    | some t => (h.read t).view slot.offset
    | none => fun _ => 0

/-- The values in a slot. -/
def read (s : Store α) (h : Host α) (slot : Slot) : List α :=
  (List.range slot.len).map (s.view h slot)

/-- Changes value `i` of a slot by `f i`. -/
def update (s : Store α) (h : Host α) (slot : Slot) (f : Nat → α → α) : Store α × Host α :=
  match s with
  | owned buffer hosts => (owned (buffer.update slot.offset slot.len f) hosts, h)
  | shared tensors =>
    match tensors[slot.buffer]? with
    | some t => (shared tensors, h.modify t fun b => b.update slot.offset slot.len f)
    | none => (shared tensors, h)

/-- Sets value `i` of a slot. -/
def set (s : Store α) (h : Host α) (slot : Slot) (i : Nat) (x : α) : Store α × Host α :=
  s.update h (slot.narrow i 1) fun _ _ => x

/-- Copies the live values to the host tensors. -/
def sync (s : Store α) (h : Host α) : Host α :=
  match s with
  | owned buffer hosts =>
    hosts.foldl (fun h (t, offset) =>
      h.modify t fun b => b.write 0 t.count (buffer.view offset)) h
  | shared _ => h

/-- Copies the values of the host tensors back into the store. -/
def reload (s : Store α) (h : Host α) : Store α :=
  match s with
  | owned buffer hosts =>
    owned (hosts.foldl (fun b (t, offset) =>
      b.write offset (h.read t).size ((h.read t).view 0)) buffer) hosts
  | shared tensors => shared tensors

end Store

end GraphTape
