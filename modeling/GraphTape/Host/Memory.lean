import GraphTape.Error.Basic
import GraphTape.Buffer.Basic

/-!
# Host memory and tensors

Tensors are handles: a shape and the storage cell that holds the elements. Copying a handle
shares its cell, so a write through one handle is seen by all handles of the same cell.
`Host` is the memory all cells live in. The length of a cell is fixed when it is allocated.

* `Host.alloc`: a new cell with the given elements.
* `Host.ofData`, `Host.matrix`: allocation after a check of the element count or of the rows.
* `Host.assign`, `Host.set`, `Host.fill`: writes through a handle.
* `Host.deepClone`: a new cell with the current elements of another.
-/

namespace GraphTape

/-- A dense vector or a matrix in row order, by its shape and its storage cell. -/
structure Tensor where
  shape : Shape
  cell : Nat
  deriving DecidableEq, Inhabited

/-- Whether two handles share their storage. -/
def Tensor.sameStorage (t u : Tensor) : Bool := t.cell == u.cell

/-- The number of elements of a tensor, by its shape. -/
def Tensor.count (t : Tensor) : Nat := t.shape.count

/-- The storage cells of all tensors. -/
structure Host (α : Type) where
  cells : Array (Buffer α) := #[]
  deriving Inhabited

namespace Host

variable {α : Type}

/-- The elements behind a handle. -/
def read (h : Host α) (t : Tensor) : Buffer α := h.cells.getD t.cell #[]

/-- Changes the elements behind a handle. -/
def modify (h : Host α) (t : Tensor) (f : Buffer α → Buffer α) : Host α :=
  { h with cells := h.cells.modify t.cell f }

/-- A new cell that holds `data`, under a handle of the given shape. -/
def alloc (h : Host α) (shape : Shape) (data : Buffer α) : Tensor × Host α :=
  (⟨shape, h.cells.size⟩, { h with cells := h.cells.push data })

/-- A tensor with the given elements, which must be as many as its shape asks for. The count is
exact: in machine words the product of two sizes can overflow, and so agree with too few
elements. -/
def ofData (h : Host α) (shape : Shape) (data : Buffer α) : Except (Error α) (Tensor × Host α) :=
  if data.size = shape.count then .ok (h.alloc shape data)
  else .error (.elementCount shape shape.count data.size)

/-- A vector with the given elements. -/
def vector (h : Host α) (data : Buffer α) : Tensor × Host α :=
  h.alloc (.vector data.size) data

/-- A matrix from its rows, which must all be as long as the first one. -/
def matrix (h : Host α) (rows : List (Buffer α)) : Except (Error α) (Tensor × Host α) :=
  let cols := (rows.head?.map Array.size).getD 0
  match rows.find? (·.size ≠ cols) with
  | some row => .error (.raggedMatrix cols row.size)
  | none => h.ofData (.matrix rows.length cols) (rows.foldl (· ++ ·) #[])

/-- A tensor whose elements are all equal. -/
def full (h : Host α) (shape : Shape) (x : α) : Tensor × Host α :=
  h.alloc shape (Array.replicate shape.count x)

/-- A tensor of zeros. -/
def zeros [Zero α] (h : Host α) (shape : Shape) : Tensor × Host α :=
  h.full shape 0

/-- Overwrites all elements behind a handle. The number of elements cannot change. -/
def assign (h : Host α) (t : Tensor) (values : Buffer α) : Except (Error α) (Host α) :=
  let size := (h.read t).size
  if values.size = size then .ok (h.modify t fun _ => values)
  else .error (.elementCount t.shape size values.size)

/-- Overwrites one element. -/
def set (h : Host α) (t : Tensor) (i : Nat) (x : α) : Host α :=
  h.modify t (·.setIfInBounds i x)

/-- Overwrites every element with one value. -/
def fill (h : Host α) (t : Tensor) (x : α) : Host α :=
  h.modify t fun data => Array.replicate data.size x

/-- An independent copy of a tensor, in a cell of its own. -/
def deepClone (h : Host α) (t : Tensor) : Except (Error α) (Tensor × Host α) :=
  h.ofData t.shape (h.read t)

/-! ## Reading after a change -/

theorem read_alloc_self (h : Host α) (shape : Shape) (data : Buffer α) :
    (h.alloc shape data).2.read (h.alloc shape data).1 = data := by
  simp [alloc, read]

theorem read_alloc_of_lt (h : Host α) (shape : Shape) (data : Buffer α) {t : Tensor}
    (ht : t.cell < h.cells.size) : (h.alloc shape data).2.read t = h.read t := by
  simp [alloc, read, Array.getElem?_push_lt ht, ht]

theorem read_modify_of_ne (h : Host α) {t u : Tensor} (f : Buffer α → Buffer α)
    (hne : t.cell ≠ u.cell) : (h.modify t f).read u = h.read u := by
  simp [modify, read, Array.getD_eq_getD_getElem?, Array.getElem?_modify, hne]

theorem read_modify_of_eq (h : Host α) {t u : Tensor} (f : Buffer α → Buffer α)
    (heq : t.cell = u.cell) (hu : u.cell < h.cells.size) :
    (h.modify t f).read u = f (h.read u) := by
  simp [modify, read, Array.getElem_modify, heq, hu]

end Host

end GraphTape
