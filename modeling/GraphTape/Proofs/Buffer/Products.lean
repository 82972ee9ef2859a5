import Mathlib.Algebra.BigOperators.Group.Finset.Sigma
import Mathlib.Algebra.BigOperators.Ring.Finset
import Mathlib.Tactic.Ring
import GraphTape.Proofs.Buffer.Part
import GraphTape.Proofs.Scalar.Exact

/-!
# Products with a matrix, element by element

The products of `GraphTape.Buffer.Matrix` work in place, with operations that cannot fail. Here are
the same products as loops over slices. They assert the lengths of their operands, cut one row of
the matrix out at a time, read and change one element at a time, and stop at the first access that
is out of range.

* `setRowProduct?`, `setTransposedProduct?`, `addOuter?`: the loops.
* `setRowProduct?_eq` and its companions: once the assertion holds no access is out of range, and
  the loops do what the products in place do.
* `Acts`: what a product leaves in a slice, and beside it.
* `dot_columnSums`, `dot_add_outer`: the adjoint laws, for exact arithmetic.
* `matrix_products_are_adjoint`: the three products together.
-/

namespace GraphTape

namespace Buffer

/-! ## Loops -/

section Loops

/-- A loop over `0, ..., n - 1` that goes through the states `state 0, ..., state n`. -/
theorem foldlM_range_eq {σ : Type} {step? : σ → Nat → Option σ} (state : Nat → σ) {n : Nat}
    (h : ∀ i < n, step? (state i) i = some (state (i + 1))) :
    (List.range n).foldlM step? (state 0) = some (state n) := by
  induction n with
  | zero => rfl
  | succ n ih =>
    have hearlier := ih fun i hi => h i (by omega)
    rw [List.range_succ, List.foldlM_append, hearlier, Option.bind_eq_bind, Option.bind_some,
      List.foldlM_cons, h n (by omega)]
    rfl

variable {α β : Type}

/-- An assertion on the operands of a product that, once it holds, is followed by a result. -/
theorem demand_bind {l m n : Nat} {u v w : Buffer α} {k : Option β} {result : β}
    (h : l ≤ u.size → m ≤ v.size → n ≤ w.size → k = some result) :
    ((demand [(l, u), (m, v), (n, w)] ()).bind fun _ => k) =
      demand [(l, u), (m, v), (n, w)] result := by
  by_cases hlong : l ≤ u.size ∧ m ≤ v.size ∧ n ≤ w.size
  · obtain ⟨hu, hv, hw⟩ := hlong
    rw [demand_eq (by simp [hu, hv, hw]), demand_eq (by simp [hu, hv, hw]), Option.bind_some,
      h hu hv hw]
  · rw [demand, demand, if_neg (by simpa using hlong), if_neg (by simpa using hlong),
      Option.bind_none]

/-- Sets an element, if there is one. -/
def set? (b : Buffer α) (i : Nat) (x : α) : Option (Buffer α) :=
  if i < b.size then some (b.setIfInBounds i x) else none

/-- Changes an element, if there is one. -/
def modify? (b : Buffer α) (i : Nat) (f : α → α) : Option (Buffer α) :=
  if i < b.size then some (b.modify i f) else none

variable {b : Buffer α} {i : Nat}

theorem set?_write (hi : i < b.size) (f : Nat → α) :
    (b.write 0 i f).set? i (f i) = some (b.write 0 (i + 1) f) := by
  rw [set?, size_write, if_pos hi, write_succ, Nat.zero_add]

theorem modify?_update (hi : i < b.size) (f : Nat → α → α) :
    (b.update 0 i f).modify? i (f i) = some (b.update 0 (i + 1) f) := by
  rw [modify?, size_update, if_pos hi, update_succ, Nat.zero_add]

theorem update_congr {start len : Nat} {f g : Nat → α → α}
    (h : ∀ i < len, f i = g i) : b.update start len f = b.update start len g := by
  induction len with
  | zero => rfl
  | succ n ih => rw [update_succ, update_succ, ih fun i hi => h i (by omega), h n (by omega)]

theorem getElem?_eq_view [Zero α] (hi : i < b.size) : b[i]? = some (b.view 0 i) := by
  rw [view, Array.getD_eq_getD_getElem?, Nat.zero_add, Array.getElem?_eq_getElem hi]
  rfl

end Loops

/-! ## The loops of the products -/

section Products

variable {α : Type} [Scalar α]

/-- Adds `x` times element `c` of `row` to element `c`, for every `c` below `cols`. -/
def addScaled? (b : Buffer α) (x : α) (row : Buffer α) (cols : Nat) : Option (Buffer α) :=
  (List.range cols).foldlM (fun b c => do
    let y ← row[c]?
    b.modify? c (· + x * y)) b

/-- Clears every element, and then adds every row of `m`, scaled by its factor. -/
def setRowProduct? (b u m : Buffer α) (rows cols : Nat) : Option (Buffer α) := do
  demand [(rows, u), (rows * cols, m), (cols, b)] ()
  let b ← (List.range cols).foldlM (fun b c => b.set? c 0) b
  (List.range rows).foldlM (fun b r => do
    let x ← u[r]?
    let row ← m.part? (r * cols) cols
    b.addScaled? x row cols) b

/-- The inner product of two vectors, from left to right. -/
def inner? (u row : Buffer α) (cols : Nat) : Option α :=
  (List.range cols).foldlM (fun s c => do
    let x ← u[c]?
    let y ← row[c]?
    some (s + x * y)) 0

/-- Sets element `r` to the inner product of `u` with row `r` of `m`. -/
def setTransposedProduct? (b u m : Buffer α) (rows cols : Nat) : Option (Buffer α) := do
  demand [(cols, u), (rows * cols, m), (rows, b)] ()
  (List.range rows).foldlM (fun b r => do
    let row ← m.part? (r * cols) cols
    let s ← inner? u row cols
    b.set? r s) b

/-- Adds `v`, scaled by the factor of the row, to every row. -/
def addOuter? (b u v : Buffer α) (rows cols : Nat) : Option (Buffer α) := do
  demand [(rows, u), (cols, v), (rows * cols, b)] ()
  (List.range rows).foldlM (fun b r => do
    let x ← u[r]?
    b.within? (r * cols) cols fun row => row.addScaled? x v cols) b

variable {u v m row : Buffer α} {rows cols r : Nat}

theorem addScaled?_eq {b : Buffer α} (hb : cols ≤ b.size) (hrow : cols ≤ row.size) (x : α) :
    b.addScaled? x row cols = some (b.update 0 cols fun c y => y + x * row.view 0 c) := by
  refine foldlM_range_eq (fun c => b.update 0 c fun c y => y + x * row.view 0 c) fun c hc => ?_
  rw [getElem?_eq_view (show c < row.size by omega), Option.bind_eq_bind, Option.bind_some]
  exact modify?_update (show c < b.size by omega) fun c y => y + x * row.view 0 c

theorem inner?_eq (hu : cols ≤ u.size) (hrow : cols ≤ row.size) :
    inner? u row cols = some (Scalar.sum cols fun c => u.view 0 c * row.view 0 c) := by
  refine foldlM_range_eq (fun c => Scalar.sum c fun c => u.view 0 c * row.view 0 c)
    fun c hc => ?_
  rw [getElem?_eq_view (show c < u.size by omega),
    getElem?_eq_view (show c < row.size by omega), Scalar.sum_succ]
  rfl

/-- A row of a matrix can be cut out. -/
theorem exists_row (hm : rows * cols ≤ m.size) (hr : r < rows) :
    ∃ row, m.part? (r * cols) cols = some row ∧ row.size = cols ∧
      ∀ c < cols, row.view 0 c = m.view 0 (r * cols + c) := by
  obtain ⟨row, hrow, hsize, hview⟩ := exists_part ((row_le hr cols).trans hm)
  exact ⟨row, hrow, hsize, fun c hc => (hview c hc).trans (view_zero_add ..).symm⟩

theorem setRowProduct?_eq (b u m : Buffer α) (rows cols : Nat) :
    b.setRowProduct? u m rows cols =
      demand [(rows, u), (rows * cols, m), (cols, b)]
        (b.setRowProduct 0 (u.view 0) (m.view 0) rows cols) := by
  refine demand_bind fun hu hm hb => ?_
  have hclear : (List.range cols).foldlM (fun b c => b.set? c 0) b =
      some (b.write 0 cols fun _ => 0) :=
    foldlM_range_eq (fun c => b.write 0 c fun _ => 0) fun c hc =>
      set?_write (show c < b.size by omega) fun _ => 0
  rw [hclear, Option.bind_eq_bind, Option.bind_some]
  -- Before pass `r` the cleared buffer has the rows below `r` added to it.
  refine foldlM_range_eq
    (fun r => (b.write 0 cols fun _ => 0).addScaledRows 0 (u.view 0) (m.view 0) cols r)
    fun r hr => ?_
  obtain ⟨row, hrow, hsize, hview⟩ := exists_row hm hr
  rw [getElem?_eq_view (show r < u.size by omega), hrow, addScaledRows_succ]
  refine (addScaled?_eq ?_ hsize.ge _).trans (congrArg some (update_congr fun c hc => ?_))
  · rwa [size_addScaledRows, size_write]
  · rw [hview c hc]

theorem setTransposedProduct?_eq (b u m : Buffer α) (rows cols : Nat) :
    b.setTransposedProduct? u m rows cols =
      demand [(cols, u), (rows * cols, m), (rows, b)]
        (b.setTransposedProduct 0 (u.view 0) (m.view 0) rows cols) := by
  refine demand_bind fun hu hm hb => ?_
  let sums : Nat → α := fun r => Scalar.sum cols fun c => u.view 0 c * m.view 0 (r * cols + c)
  refine foldlM_range_eq (fun r => b.write 0 r sums) fun r hr => ?_
  obtain ⟨row, hrow, hsize, hview⟩ := exists_row hm hr
  have hsum : inner? u row cols = some (sums r) := by
    rw [inner?_eq hu hsize.ge]
    exact congrArg some (Scalar.sum_congr fun c hc => by rw [hview c hc])
  rw [hrow, Option.bind_eq_bind, Option.bind_some, hsum]
  exact set?_write (show r < b.size by omega) sums

theorem addOuter?_eq (b u v : Buffer α) (rows cols : Nat) :
    b.addOuter? u v rows cols =
      demand [(rows, u), (cols, v), (rows * cols, b)]
        (b.addOuter 0 (u.view 0) (v.view 0) rows cols) := by
  refine demand_bind fun hu hv hb => ?_
  -- A pass sees row `r` alone, which no earlier pass has touched.
  refine foldlM_range_eq (fun r => b.addOuter 0 (u.view 0) (v.view 0) r cols) fun r hr => ?_
  have hroom : r * cols + cols ≤ (b.addOuter 0 (u.view 0) (v.view 0) r cols).size := by
    rw [size_addOuter]
    exact (row_le hr cols).trans hb
  rw [getElem?_eq_view (show r < u.size by omega), Option.bind_eq_bind, Option.bind_some,
    addOuter_succ, Nat.zero_add]
  refine within?_eq_update hroom fun row hrow => ⟨_, addScaled?_eq hrow.ge hv _, ?_⟩
  exact fun _ _ _ => rfl

end Products

/-! ## What a product leaves -/

section Acts

variable {α : Type} [Zero α]

/-- A kernel on slices, and an operation in place, that both change element `i` of a stretch by
`f i`, for every `i` below `n`, and nothing else. The slices may be longer than `n`. -/
structure Acts (n : Nat) (f : Nat → α → α) (kernel? : Buffer α → Option (Buffer α))
    (inPlace : Buffer α → Nat → Buffer α) : Prop where
  slice : ∀ b : Buffer α, n ≤ b.size → kernel? b = some (inPlace b 0)
  within : ∀ (b : Buffer α) (start len : Nat), n ≤ len → start + len ≤ b.size →
    b.within? start len kernel? = some (inPlace b start)
  fills : ∀ (b : Buffer α) (start : Nat), start + n ≤ b.size →
    b.Fills start n (fun i => f i (b.view start i)) (inPlace b start)

variable {n : Nat} {f : Nat → α → α}

/-- On a slice of a buffer a kernel does what it does in place. -/
theorem Acts.of_slice {kernel? : Buffer α → Option (Buffer α)} {inPlace : Buffer α → Nat → Buffer α}
    (hslice : ∀ b : Buffer α, n ≤ b.size → kernel? b = some (inPlace b 0))
    (hfills : ∀ (b : Buffer α) (start : Nat), start + n ≤ b.size →
      b.Fills start n (fun i => f i (b.view start i)) (inPlace b start)) :
    Acts n f kernel? inPlace := by
  refine ⟨hslice, fun b start len hle hroom => ?_, hfills⟩
  -- The slice may have a tail, so both sides are compared on all of its `len` elements.
  have hlong : 0 + n ≤ len := by omega
  have hwhole : b.Fills (start + 0) n _ _ := hfills b start (by omega)
  refine within?_eq hroom (hwhole.enlarge hlong) fun p hp => ?_
  have hn : n ≤ p.size := by rw [hp.size_eq]; exact hle
  have hpart : p.Fills (0 + 0) n _ _ := hfills p 0 (by omega)
  refine ⟨_, _, hslice p hn, hpart.enlarge hlong, fun i hi => ?_⟩
  simp only [Nat.sub_zero, hp.view_eq i hi]

end Acts

section Acts

variable {α : Type} [Scalar α] {u v m : Buffer α} {rows cols : Nat}

/-- The entries of an outer product, in row order. -/
def outer (u v : Nat → α) (cols k : Nat) : α := u (k / cols) * v (k % cols)

theorem outer_entry (u v : Nat → α) {c : Nat} (hc : c < cols) (r : Nat) :
    outer u v cols (r * cols + c) = u r * v c := by
  rw [outer, entry_div hc, entry_mod hc]

theorem setRowProduct_acts (hu : rows ≤ u.size) (hm : rows * cols ≤ m.size) :
    Acts cols (fun c _ => Scalar.sum rows fun r => u.view 0 r * m.view 0 (r * cols + c))
      (fun b => b.setRowProduct? u m rows cols)
      fun b start => b.setRowProduct start (u.view 0) (m.view 0) rows cols :=
  .of_slice (fun b hb => (setRowProduct?_eq ..).trans (demand_eq (by simp [hu, hm, hb])))
    fun _ _ h => setRowProduct_fills h _ _ rows

theorem setTransposedProduct_acts (hu : cols ≤ u.size) (hm : rows * cols ≤ m.size) :
    Acts rows (fun r _ => Scalar.sum cols fun c => u.view 0 c * m.view 0 (r * cols + c))
      (fun b => b.setTransposedProduct? u m rows cols)
      fun b start => b.setTransposedProduct start (u.view 0) (m.view 0) rows cols :=
  .of_slice (fun b hb => (setTransposedProduct?_eq ..).trans (demand_eq (by simp [hu, hm, hb])))
    fun _ _ h => setTransposedProduct_fills h _ _ cols

theorem addOuter_acts (hu : rows ≤ u.size) (hv : cols ≤ v.size) :
    Acts (rows * cols) (fun k x => x + outer (u.view 0) (v.view 0) cols k)
      (fun b => b.addOuter? u v rows cols)
      fun b start => b.addOuter start (u.view 0) (v.view 0) rows cols :=
  .of_slice (fun b hb => (addOuter?_eq ..).trans (demand_eq (by simp [hu, hv, hb])))
    fun _ _ h => addOuter_fills h _ _

end Acts

/-! ## The adjoint laws -/

section Dot

variable {α : Type} [Scalar α]

/-- The inner product of two vectors of length `n`. -/
def dot (n : Nat) (x y : Nat → α) : α := Scalar.sum n fun i => x i * y i

theorem dot_congr {n : Nat} {x x' y y' : Nat → α} (hx : ∀ i < n, x i = x' i)
    (hy : ∀ i < n, y i = y' i) : dot n x y = dot n x' y' :=
  Scalar.sum_congr fun i hi => by rw [hx i hi, hy i hi]

variable [Scalar.Exact α]

attribute [local instance] Scalar.Exact.commRing

theorem dot_eq (n : Nat) (x y : Nat → α) : dot n x y = ∑ i ∈ Finset.range n, x i * y i :=
  Scalar.sum_eq ..

theorem dot_add (n : Nat) (x y z : Nat → α) :
    dot n x (fun i => y i + z i) = dot n x y + dot n x z := by
  simp only [dot_eq, mul_add, Finset.sum_add_distrib]

/-- A matrix, paired with an outer product. -/
theorem dot_outer (rows cols : Nat) (m u v : Nat → α) :
    dot (rows * cols) m (outer u v cols) =
      dot rows u fun r => Scalar.sum cols fun c => v c * m (r * cols + c) := by
  rw [dot_eq, dot_eq, Scalar.sum_entries]
  refine Finset.sum_congr rfl fun r _ => ?_
  rw [Scalar.sum_eq, Finset.mul_sum]
  refine Finset.sum_congr rfl fun c hc => ?_
  rw [outer_entry u v (Finset.mem_range.1 hc)]
  ring

/-- The column sums of a matrix, and its row sums: each is the adjoint of the other. -/
theorem dot_columnSums (rows cols : Nat) (m u v : Nat → α) :
    dot cols (fun c => Scalar.sum rows fun r => u r * m (r * cols + c)) v =
      dot rows u fun r => Scalar.sum cols fun c => v c * m (r * cols + c) := by
  simp only [dot_eq, Scalar.sum_eq, Finset.sum_mul, Finset.mul_sum]
  rw [Finset.sum_comm]
  refine Finset.sum_congr rfl fun r _ => Finset.sum_congr rfl fun c _ => ?_
  ring

/-- An outer product that is added to a matrix, as seen by another one. -/
theorem dot_add_outer (rows cols : Nat) (m g u v : Nat → α) :
    dot (rows * cols) m (fun k => g k + outer u v cols k) - dot (rows * cols) m g =
      dot rows u fun r => Scalar.sum cols fun c => v c * m (r * cols + c) := by
  rw [dot_add, dot_outer, add_sub_cancel_left]

end Dot

/-- **Products with a matrix are sums in a fixed order, and adjoint to each other.** On slices that
are long enough no loop fails, and each does what the product in place does at the start of the
slice. A row product leaves the column sums, taken over ascending rows; a transposed product leaves
the row sums, taken over ascending columns; an outer product adds `u r * v c` to entry
`r * cols + c`, and all else in the buffer stays. In exact arithmetic a row product paired with `v`
is `u` paired with the transposed product of `v`, and this is what the outer product of `u` and `v`
adds to a matrix that is paired with `m`. -/
theorem matrix_products_are_adjoint {α : Type} [Scalar α] (rows cols : Nat) :
    (∀ u m : Buffer α, rows ≤ u.size → rows * cols ≤ m.size →
      Acts cols (fun c _ => Scalar.sum rows fun r => u.view 0 r * m.view 0 (r * cols + c))
        (fun b => b.setRowProduct? u m rows cols)
        fun b start => b.setRowProduct start (u.view 0) (m.view 0) rows cols) ∧
    (∀ u m : Buffer α, cols ≤ u.size → rows * cols ≤ m.size →
      Acts rows (fun r _ => Scalar.sum cols fun c => u.view 0 c * m.view 0 (r * cols + c))
        (fun b => b.setTransposedProduct? u m rows cols)
        fun b start => b.setTransposedProduct start (u.view 0) (m.view 0) rows cols) ∧
    (∀ u v : Buffer α, rows ≤ u.size → cols ≤ v.size →
      Acts (rows * cols) (fun k x => x + outer (u.view 0) (v.view 0) cols k)
        (fun b => b.addOuter? u v rows cols)
        (fun b start => b.addOuter start (u.view 0) (v.view 0) rows cols) ∧
      ∀ r < rows, ∀ c < cols, outer (u.view 0) (v.view 0) cols (r * cols + c) =
        u.view 0 r * v.view 0 c) ∧
    (Scalar.Exact α → ∀ (u v m : Nat → α) (b d g : Buffer α) (i j k : Nat),
      i + cols ≤ b.size → j + rows ≤ d.size → k + rows * cols ≤ g.size →
        let forward := (b.setRowProduct i u m rows cols).view i
        let backward := (d.setTransposedProduct j v m rows cols).view j
        let grown := (g.addOuter k u v rows cols).view k
        dot cols forward v = dot rows u backward ∧
        dot (rows * cols) m grown - dot (rows * cols) m (g.view k) = dot rows u backward) := by
  refine ⟨fun u m => setRowProduct_acts, fun u m => setTransposedProduct_acts,
    fun u v hu hv => ⟨addOuter_acts hu hv, fun r _ c hc => outer_entry _ _ hc r⟩, ?_⟩
  intro _ u v m b d g i j k hb hd hg forward backward grown
  have hforward : ∀ c < cols, forward c = Scalar.sum rows fun r => u r * m (r * cols + c) :=
    (setRowProduct_fills hb u m rows).view_eq
  have hbackward : ∀ r < rows, backward r = Scalar.sum cols fun c => v c * m (r * cols + c) :=
    (setTransposedProduct_fills hd v m cols).view_eq
  have hgrown : ∀ e < rows * cols, grown e = g.view k e + outer u v cols e :=
    (addOuter_fills hg u v).view_eq
  rw [dot_congr hforward fun _ _ => rfl, dot_congr (fun _ _ => rfl) hbackward,
    dot_congr (fun _ _ => rfl) hgrown]
  exact ⟨dot_columnSums rows cols m u v, dot_add_outer rows cols m (g.view k) u v⟩

/-- Two rows of three entries, and an element that is not theirs. -/
def wide : Buffer ℚ := #[1, 2, 3, 4, 5, 6, 9]

/-- A factor for each row of `wide`, and an element that is not used. -/
def wideRows : Buffer ℚ := #[2, -1, 9]

/-- A factor for each column of `wide`, and an element that is not used. -/
def wideColumns : Buffer ℚ := #[1, 0, -2, 9]

theorem matrix_products_are_adjoint_wide :
    2 ≤ wideRows.size ∧ 3 ≤ wideColumns.size ∧ 2 * 3 ≤ wide.size ∧
    setRowProduct? #[8, 8, 8, 7] wideRows wide 2 3 = some #[-2, -1, 0, 7] ∧
    setTransposedProduct? #[8, 8, 7] wideColumns wide 2 3 = some #[-5, -8, 7] ∧
    addOuter? #[1, 1, 1, 1, 1, 1, 7] wideRows wideColumns 2 3 = some #[3, 1, -3, 0, 1, 3, 7] ∧
    (within? #[6, 8, 8, 7] 1 3 fun b => b.setTransposedProduct? wideColumns wide 2 3) =
      some #[6, -5, -8, 7] ∧
    dot 3 (view #[-2, -1, 0, 7] 0) (wideColumns.view 0) =
      dot 2 (wideRows.view 0) (view #[-5, -8, 7] 0) ∧
    dot (2 * 3) (wide.view 0) (view #[3, 1, -3, 0, 1, 3, 7] 0) -
        dot (2 * 3) (wide.view 0) (view #[1, 1, 1, 1, 1, 1, 7] 0) =
      dot 2 (wideRows.view 0) (view #[-5, -8, 7] 0) := by
  obtain ⟨hproduct, htransposed, houter, hdot⟩ := matrix_products_are_adjoint (α := ℚ) 2 3
  have hforward : setRowProduct #[8, 8, 8, 7] 0 (wideRows.view 0) (wide.view 0) 2 3 =
      #[-2, -1, 0, 7] := by decide +kernel
  have hbackward : setTransposedProduct #[8, 8, 7] 0 (wideColumns.view 0) (wide.view 0) 2 3 =
      #[-5, -8, 7] := by decide +kernel
  have hinside : setTransposedProduct #[6, 8, 8, 7] 1 (wideColumns.view 0) (wide.view 0) 2 3 =
      #[6, -5, -8, 7] := by decide +kernel
  have hgrown : addOuter #[1, 1, 1, 1, 1, 1, 7] 0 (wideRows.view 0) (wideColumns.view 0) 2 3 =
      #[3, 1, -3, 0, 1, 3, 7] := by decide +kernel
  have hu : 2 ≤ wideRows.size := by decide
  have hv : 3 ≤ wideColumns.size := by decide
  have hm : 2 * 3 ≤ wide.size := by decide
  have hlaws := hdot inferInstance (wideRows.view 0) (wideColumns.view 0) (wide.view 0)
    #[8, 8, 8, 7] #[8, 8, 7] #[1, 1, 1, 1, 1, 1, 7] 0 0 0 (by decide) (by decide) (by decide)
  simp only [hforward, hbackward, hgrown] at hlaws
  refine ⟨hu, hv, hm, ?_, ?_, ?_, ?_, hlaws⟩
  · rw [(hproduct _ _ hu hm).slice _ (by decide), hforward]
  · rw [(htransposed _ _ hv hm).slice _ (by decide), hbackward]
  · rw [(houter _ _ hu hv).1.slice _ (by decide), hgrown]
  · rw [(htransposed _ _ hv hm).within _ 1 3 (by decide) (by decide), hinside]

end Buffer

end GraphTape
