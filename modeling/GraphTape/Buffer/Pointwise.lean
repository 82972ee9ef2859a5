import GraphTape.Buffer.Basic

/-!
# Entrywise operations

Operations that write one stretch of a buffer entry by entry. Operands are read as functions of
the index within the stretch; a matrix counts as the stretch of all its entries.
-/

namespace GraphTape.Buffer

variable {α : Type} [Scalar α]

/-- Entry `i` becomes `u i`. -/
def copyFrom (b : Buffer α) (start n : Nat) (u : Nat → α) : Buffer α :=
  b.write start n u

/-- Entry `i` becomes `u i + v i`. -/
def setSum (b : Buffer α) (start n : Nat) (u v : Nat → α) : Buffer α :=
  b.write start n fun i => u i + v i

/-- Entry `i` becomes `u i - v i`. -/
def setDifference (b : Buffer α) (start n : Nat) (u v : Nat → α) : Buffer α :=
  b.write start n fun i => u i - v i

/-- Entry `i` becomes `u i * v i`. -/
def setProduct (b : Buffer α) (start n : Nat) (u v : Nat → α) : Buffer α :=
  b.write start n fun i => u i * v i

/-- Entry `i` becomes `u i * s`. -/
def setScaled (b : Buffer α) (start n : Nat) (u : Nat → α) (s : α) : Buffer α :=
  b.write start n fun i => u i * s

/-- Entry `i` becomes `f (u i)`. -/
def setMap (b : Buffer α) (start n : Nat) (f : α → α) (u : Nat → α) : Buffer α :=
  b.write start n fun i => f (u i)

/-- Adds `v i` to entry `i`. -/
def addEach (b : Buffer α) (start n : Nat) (v : Nat → α) : Buffer α :=
  b.update start n fun i x => x + v i

/-- Multiplies entry `i` by `v i`. -/
def mulEach (b : Buffer α) (start n : Nat) (v : Nat → α) : Buffer α :=
  b.update start n fun i x => x * v i

/-- The matrix entries become `u + v`. -/
def setMatrixSum (b : Buffer α) (start rows cols : Nat) (u v : Nat → α) : Buffer α :=
  b.setSum start (rows * cols) u v

/-- The matrix entries become `u - v`. -/
def setMatrixDifference (b : Buffer α) (start rows cols : Nat) (u v : Nat → α) : Buffer α :=
  b.setDifference start (rows * cols) u v

/-- The matrix entries become the entrywise product of `u` and `v`. -/
def setMatrixProduct (b : Buffer α) (start rows cols : Nat) (u v : Nat → α) : Buffer α :=
  b.setProduct start (rows * cols) u v

/-- The matrix entries become `u` scaled by `s`. -/
def setMatrixScaled (b : Buffer α) (start rows cols : Nat) (u : Nat → α) (s : α) : Buffer α :=
  b.setScaled start (rows * cols) u s

end GraphTape.Buffer
