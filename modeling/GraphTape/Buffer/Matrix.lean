import GraphTape.Buffer.Basic

/-!
# Products with a matrix

The three products a layer needs, for a matrix `m` of `rows` by `cols` entries in row order.

* `setRowProduct`: a row vector times the matrix, accumulated row by row.
* `setTransposedProduct`: a row vector times the transposed matrix, one inner product an entry.
* `addOuter`: the outer product of two vectors, added to a matrix row by row.

`getElem?_setRowProduct` and `getElem?_addOuter` give the accumulated results entry by entry.
Entry `r * cols + c` is the one in row `r` and column `c` (`entry_div`, `entry_mod`).
-/

namespace GraphTape.Buffer

variable {α : Type} [Scalar α]

/-- Adds rows `0, ..., r - 1` of the matrix, row `i` scaled by `u i`. -/
def addScaledRows (b : Buffer α) (start : Nat) (u m : Nat → α) (cols r : Nat) : Buffer α :=
  r.fold (fun i _ b => b.update start cols fun c x => x + u i * m (i * cols + c)) b

/-- Entry `c` becomes the sum over `r` of `u r * m (r * cols + c)`: the stretch is cleared and
then every row of the matrix, scaled by its factor, is added to it. -/
def setRowProduct (b : Buffer α) (start : Nat) (u m : Nat → α) (rows cols : Nat) : Buffer α :=
  (b.write start cols fun _ => 0).addScaledRows start u m cols rows

/-- Entry `r` becomes the sum over `c` of `u c * m (r * cols + c)`. -/
def setTransposedProduct (b : Buffer α) (start : Nat) (u m : Nat → α) (rows cols : Nat) :
    Buffer α :=
  b.write start rows fun r => Scalar.sum cols fun c => u c * m (r * cols + c)

/-- Adds `u r * v c` to entry `r * cols + c`, row by row. -/
def addOuter (b : Buffer α) (start : Nat) (u v : Nat → α) (rows cols : Nat) : Buffer α :=
  rows.fold (fun r _ b => b.update (start + r * cols) cols fun c x => x + u r * v c) b

/-! ## Rows and columns -/

/-- A row of a matrix ends where the next one starts, and the last one within the matrix. -/
theorem row_le {r rows : Nat} (hr : r < rows) (cols : Nat) : r * cols + cols ≤ rows * cols := by
  have hnext : (r + 1) * cols ≤ rows * cols := Nat.mul_le_mul_right cols hr
  rwa [Nat.succ_mul] at hnext

/-- The row of an entry. -/
theorem entry_div {c cols : Nat} (hc : c < cols) (r : Nat) : (r * cols + c) / cols = r := by
  rw [Nat.add_comm, Nat.add_mul_div_right _ _ (by omega), Nat.div_eq_of_lt hc, Nat.zero_add]

/-- The column of an entry. -/
theorem entry_mod {c cols : Nat} (hc : c < cols) (r : Nat) : (r * cols + c) % cols = c := by
  rw [Nat.add_comm, Nat.add_mul_mod_self_right, Nat.mod_eq_of_lt hc]

/-! ## Entry by entry -/

theorem addScaledRows_succ (b : Buffer α) (start : Nat) (u m : Nat → α) (cols r : Nat) :
    b.addScaledRows start u m cols (r + 1) =
      (b.addScaledRows start u m cols r).update start cols
        fun c x => x + u r * m (r * cols + c) := by
  simp [addScaledRows]

@[simp] theorem size_addScaledRows (b : Buffer α) (start : Nat) (u m : Nat → α) (cols r : Nat) :
    (b.addScaledRows start u m cols r).size = b.size := by
  induction r with
  | zero => rfl
  | succ r ih => rw [addScaledRows_succ, size_update, ih]

@[simp] theorem size_setRowProduct (b : Buffer α) (start : Nat) (u m : Nat → α)
    (rows cols : Nat) : (b.setRowProduct start u m rows cols).size = b.size := by
  simp [setRowProduct]

/-- A row product holds the column sums, taken over the rows in ascending order. -/
theorem getElem?_setRowProduct (b : Buffer α) (start : Nat) (u m : Nat → α) (rows cols k : Nat) :
    (b.setRowProduct start u m rows cols)[k]? =
      if start ≤ k ∧ k < start + cols then
        (b[k]?).map fun _ => Scalar.sum rows fun r => u r * m (r * cols + (k - start))
      else b[k]? := by
  unfold setRowProduct
  induction rows with
  | zero =>
    show (b.write start cols fun _ => 0)[k]? = _
    rw [getElem?_write]
    rfl
  | succ r ih =>
    rw [addScaledRows_succ, getElem?_update, ih]
    split
    · rw [Option.map_map]
      congr 1
    · rfl

@[simp] theorem size_setTransposedProduct (b : Buffer α) (start : Nat) (u m : Nat → α)
    (rows cols : Nat) : (b.setTransposedProduct start u m rows cols).size = b.size := by
  simp [setTransposedProduct]

theorem addOuter_succ (b : Buffer α) (start : Nat) (u v : Nat → α) (rows cols : Nat) :
    b.addOuter start u v (rows + 1) cols =
      (b.addOuter start u v rows cols).update (start + rows * cols) cols
        fun c x => x + u rows * v c := by
  simp [addOuter]

@[simp] theorem size_addOuter (b : Buffer α) (start : Nat) (u v : Nat → α) (rows cols : Nat) :
    (b.addOuter start u v rows cols).size = b.size := by
  induction rows with
  | zero => rfl
  | succ r ih => rw [addOuter_succ, size_update, ih]

/-- Adding an outer product adds one product to each entry of the matrix, and nothing else. -/
theorem getElem?_addOuter (b : Buffer α) (start : Nat) (u v : Nat → α) (rows cols k : Nat) :
    (b.addOuter start u v rows cols)[k]? =
      if start ≤ k ∧ k < start + rows * cols then
        (b[k]?).map fun x => x + u ((k - start) / cols) * v ((k - start) % cols)
      else b[k]? := by
  induction rows with
  | zero =>
    rw [if_neg (by omega)]
    rfl
  | succ r ih =>
    rw [addOuter_succ, getElem?_update, ih, Nat.succ_mul]
    by_cases hrow : start + r * cols ≤ k ∧ k < start + r * cols + cols
    · obtain ⟨c, hc, rfl⟩ : ∃ c < cols, k = start + (r * cols + c) :=
        ⟨k - (start + r * cols), by omega, by omega⟩
      have hcolumn : start + (r * cols + c) - (start + r * cols) = c := by omega
      rw [if_pos hrow, if_neg (by omega), if_pos (by omega), hcolumn, Nat.add_sub_cancel_left,
        entry_div hc, entry_mod hc]
    · rw [if_neg hrow]
      by_cases hearlier : start ≤ k ∧ k < start + r * cols
      · rw [if_pos hearlier, if_pos (by omega)]
      · rw [if_neg hearlier, if_neg (by omega)]

end GraphTape.Buffer
