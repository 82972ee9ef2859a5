import GraphTape.Scalar.Basic

/-!
# Buffers

Flat storage for the numbers of a run. A stretch of a buffer is read as a function of the index
within the stretch, and written entry by entry from such a function; neither changes the length
of the buffer. `getD_write` and `getD_update` say what an entry holds afterwards.
-/

namespace GraphTape

/-- A flat stretch of storage. -/
abbrev Buffer (α : Type) := Array α

namespace Buffer

variable {α : Type}

/-- `n` zeros. -/
def zeros [Zero α] (n : Nat) : Buffer α := Array.replicate n 0

/-- Entry `i` of the stretch that starts at `start`. -/
def view [Zero α] (b : Buffer α) (start : Nat) : Nat → α := fun i => b.getD (start + i) 0

/-- The entries of a stretch. -/
def slice [Zero α] (b : Buffer α) (start len : Nat) : List α := (List.range len).map (b.view start)

/-- Sets entry `i` of the stretch of length `len` at `start` to `f i`. -/
def write (b : Buffer α) (start len : Nat) (f : Nat → α) : Buffer α :=
  len.fold (fun i _ b => b.setIfInBounds (start + i) (f i)) b

/-- Changes entry `i` of the stretch of length `len` at `start` by `f i`. -/
def update (b : Buffer α) (start len : Nat) (f : Nat → α → α) : Buffer α :=
  len.fold (fun i _ b => b.modify (start + i) (f i)) b

/-! ## Reading after a write -/

theorem write_succ (b : Buffer α) (start len : Nat) (f : Nat → α) :
    b.write start (len + 1) f = (b.write start len f).setIfInBounds (start + len) (f len) := by
  simp [write]

@[simp] theorem size_write (b : Buffer α) (start len : Nat) (f : Nat → α) :
    (b.write start len f).size = b.size := by
  induction len with
  | zero => rfl
  | succ n ih => rw [write_succ, Array.size_setIfInBounds, ih]

theorem getElem?_write (b : Buffer α) (start len : Nat) (f : Nat → α) (k : Nat) :
    (b.write start len f)[k]? =
      if start ≤ k ∧ k < start + len then (b[k]?).map fun _ => f (k - start) else b[k]? := by
  induction len with
  | zero => rw [if_neg (by omega)]; rfl
  | succ n ih =>
    rw [write_succ, Array.getElem?_setIfInBounds, size_write, ih]
    grind

theorem update_succ (b : Buffer α) (start len : Nat) (f : Nat → α → α) :
    b.update start (len + 1) f = (b.update start len f).modify (start + len) (f len) := by
  simp [update]

@[simp] theorem size_update (b : Buffer α) (start len : Nat) (f : Nat → α → α) :
    (b.update start len f).size = b.size := by
  induction len with
  | zero => rfl
  | succ n ih => rw [update_succ, Array.size_modify, ih]

theorem getElem?_update (b : Buffer α) (start len : Nat) (f : Nat → α → α) (k : Nat) :
    (b.update start len f)[k]? =
      if start ≤ k ∧ k < start + len then (b[k]?).map (f (k - start)) else b[k]? := by
  induction len with
  | zero => rw [if_neg (by omega)]; rfl
  | succ n ih =>
    rw [update_succ, Array.getElem?_modify, ih]
    grind

@[simp] theorem size_zeros [Zero α] (n : Nat) : (zeros n : Buffer α).size = n := by
  simp [zeros]

end Buffer

end GraphTape
