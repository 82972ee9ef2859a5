import GraphTape.Buffer.Matrix
import GraphTape.Buffer.Pointwise

/-!
# Filled stretches

Every kernel of a run rewrites one stretch of a buffer and leaves the rest alone. `Fills` says so
in one sentence, with the entries the stretch holds afterwards; the size never changes.

* `ext_view`, `extract_eq`: buffers, and stretches that are cut out, by what is read of them.
* `Fills.view_eq`, `Fills.view_of_disjoint`: what is read in the stretch and away from it.
* `Fills.trans`: of two kernels on one stretch the second one counts.
* `write_fills`, `addEach_fills`, `setRowProduct_fills` and so on: one sentence for each kernel.
-/

namespace GraphTape.Buffer

variable {α : Type}

/-- `b'` is `b` with the stretch of length `len` at `start` holding `f`. -/
structure Fills [Zero α] (b : Buffer α) (start len : Nat) (f : Nat → α) (b' : Buffer α) :
    Prop where
  size_eq : b'.size = b.size
  view_eq : ∀ i < len, b'.view start i = f i
  getElem?_eq : ∀ k, k < start ∨ start + len ≤ k → b'[k]? = b[k]?

/-! ## Reading -/

section Reading

variable [Zero α] {b b' b'' : Buffer α} {start len : Nat} {f g : Nat → α}

theorem view_congr {k : Nat} {s : Nat} (h : b'[s + k]? = b[s + k]?) :
    b'.view s k = b.view s k := by
  simp only [view, Array.getD_eq_getD_getElem?, h]

@[simp] theorem getD_zeros (n i : Nat) : (zeros n : Buffer α).getD i 0 = 0 := by
  rw [zeros, Array.getD_eq_getD_getElem?, Array.getElem?_replicate]
  split <;> rfl

@[simp] theorem view_zeros (n s i : Nat) : (zeros n : Buffer α).view s i = 0 := getD_zeros ..

theorem ext_view (hsize : b.size = b'.size) (h : ∀ i < b.size, b.view 0 i = b'.view 0 i) :
    b = b' := by
  apply Array.ext hsize
  intro i hi hi'
  have hview := h i hi
  simp only [view, Nat.zero_add] at hview
  simpa [hi, hi'] using hview

/-- A stretch that is cut out of a buffer holds what the buffer holds there. -/
theorem view_extract {i : Nat} (hi : i < len) :
    view (b.extract start (start + len)) 0 i = b.view start i := by
  simp only [view, Array.getD_eq_getD_getElem?, Nat.zero_add]
  by_cases hlt : start + i < b.size
  · rw [Array.getElem?_extract, if_pos (by omega)]
  · rw [Array.getElem?_eq_none (by rw [Array.size_extract]; omega),
      Array.getElem?_eq_none (by omega)]

theorem extract_eq (hroom : start + len ≤ b.size) (hsize : b'.size = len)
    (h : ∀ i < len, b.view start i = b'.view 0 i) : b.extract start (start + len) = b' := by
  have hlength : (b.extract start (start + len)).size = len := by
    rw [Array.size_extract]
    omega
  refine ext_view (hlength.trans hsize.symm) fun i hi => ?_
  rw [hlength] at hi
  exact (view_extract hi).trans (h i hi)

/-- An entry outside the stretch reads as before. -/
theorem Fills.view_of_outside (h : b.Fills start len f b') {s i : Nat}
    (hi : s + i < start ∨ start + len ≤ s + i) : b'.view s i = b.view s i :=
  view_congr (h.getElem?_eq _ hi)

/-- A stretch that does not meet the filled one reads as before. -/
theorem Fills.view_of_disjoint (h : b.Fills start len f b') {s n i : Nat}
    (hd : s + n ≤ start ∨ start + len ≤ s) (hi : i < n) : b'.view s i = b.view s i :=
  h.view_of_outside (by omega)

theorem Fills.congr (h : b.Fills start len f b') (hfg : ∀ i < len, f i = g i) :
    b.Fills start len g b' :=
  ⟨h.size_eq, fun i hi => (h.view_eq i hi).trans (hfg i hi), h.getElem?_eq⟩

theorem Fills.trans (h : b.Fills start len f b') (h' : b'.Fills start len g b'') :
    b.Fills start len g b'' :=
  ⟨h'.size_eq.trans h.size_eq, h'.view_eq,
    fun k hk => (h'.getElem?_eq k hk).trans (h.getElem?_eq k hk)⟩

end Reading

/-! ## Kernels -/

section Kernels

variable [Zero α] {b : Buffer α} {start len : Nat}

theorem write_fills (h : start + len ≤ b.size) (f : Nat → α) :
    b.Fills start len f (b.write start len f) := by
  refine ⟨size_write .., fun i hi => ?_, fun k hk => ?_⟩
  · have hlt : start + i < b.size := by omega
    simp only [view, Array.getD_eq_getD_getElem?, getElem?_write]
    rw [if_pos (by omega), Array.getElem?_eq_getElem hlt, Nat.add_sub_cancel_left]
    rfl
  · rw [getElem?_write, if_neg (by omega)]

theorem update_fills (h : start + len ≤ b.size) (f : Nat → α → α) :
    b.Fills start len (fun i => f i (b.view start i)) (b.update start len f) := by
  refine ⟨size_update .., fun i hi => ?_, fun k hk => ?_⟩
  · have hlt : start + i < b.size := by omega
    simp only [view, Array.getD_eq_getD_getElem?, getElem?_update]
    rw [if_pos (by omega), Array.getElem?_eq_getElem hlt, Nat.add_sub_cancel_left]
    rfl
  · rw [getElem?_update, if_neg (by omega)]

end Kernels

section Kernels

variable [Scalar α] {b : Buffer α} {start len : Nat}

theorem copyFrom_fills (h : start + len ≤ b.size) (u : Nat → α) :
    b.Fills start len u (b.copyFrom start len u) :=
  write_fills h u

theorem addEach_fills (h : start + len ≤ b.size) (v : Nat → α) :
    b.Fills start len (fun i => b.view start i + v i) (b.addEach start len v) :=
  update_fills h fun i x => x + v i

theorem mulEach_fills (h : start + len ≤ b.size) (v : Nat → α) :
    b.Fills start len (fun i => b.view start i * v i) (b.mulEach start len v) :=
  update_fills h fun i x => x * v i

/-- A row product holds the column sums. -/
theorem setRowProduct_fills {cols : Nat} (h : start + cols ≤ b.size) (u m : Nat → α)
    (rows : Nat) :
    b.Fills start cols (fun c => Scalar.sum rows fun r => u r * m (r * cols + c))
      (b.setRowProduct start u m rows cols) := by
  refine ⟨size_setRowProduct .., fun i hi => ?_, fun k hk => ?_⟩
  · have hlt : start + i < b.size := by omega
    simp only [view, Array.getD_eq_getD_getElem?, getElem?_setRowProduct]
    rw [if_pos (by omega), Array.getElem?_eq_getElem hlt, Nat.add_sub_cancel_left]
    rfl
  · rw [getElem?_setRowProduct, if_neg (by omega)]

/-- A transposed product holds the row sums, taken over the columns in ascending order. -/
theorem setTransposedProduct_fills {rows : Nat} (h : start + rows ≤ b.size) (u m : Nat → α)
    (cols : Nat) :
    b.Fills start rows (fun r => Scalar.sum cols fun c => u c * m (r * cols + c))
      (b.setTransposedProduct start u m rows cols) :=
  write_fills h _

/-- An outer product adds one product to each entry of the matrix. -/
theorem addOuter_fills {rows cols : Nat} (h : start + rows * cols ≤ b.size) (u v : Nat → α) :
    b.Fills start (rows * cols) (fun k => b.view start k + u (k / cols) * v (k % cols))
      (b.addOuter start u v rows cols) := by
  refine ⟨size_addOuter .., fun i hi => ?_, fun k hk => ?_⟩
  · have hlt : start + i < b.size := by omega
    simp only [view, Array.getD_eq_getD_getElem?, getElem?_addOuter]
    rw [if_pos (by omega), Array.getElem?_eq_getElem hlt, Nat.add_sub_cancel_left]
    rfl
  · rw [getElem?_addOuter, if_neg (by omega)]

end Kernels

end GraphTape.Buffer
