/-!
# Shapes

The sizes of a dense array along each of its dimensions. A vector has one dimension and a matrix
two; matrices are stored row by row, so entry `(r, c)` is element `r * cols + c`.
-/

namespace GraphTape

/-- The sizes of a dense array along each of its dimensions. -/
structure Shape where
  dims : List Nat
  deriving DecidableEq, Inhabited

namespace Shape

/-- The shape of a vector with `n` elements. -/
def vector (n : Nat) : Shape := ⟨[n]⟩

/-- The shape of a matrix. -/
def matrix (rows cols : Nat) : Shape := ⟨[rows, cols]⟩

/-- The number of dimensions. -/
def rank (s : Shape) : Nat := s.dims.length

/-- The number of elements: the product of all sizes, one when there is no dimension. Sizes are
unbounded here. A product of machine words can overflow, which takes more elements than there are
addresses. -/
def count (s : Shape) : Nat := s.dims.foldl (· * ·) 1

/-- The size along dimension `d`. -/
def dim? (s : Shape) (d : Nat) : Option Nat := s.dims[d]?

/-- The rows and columns of a matrix. -/
def asMatrix? : Shape → Option (Nat × Nat)
  | ⟨[rows, cols]⟩ => some (rows, cols)
  | _ => none

/-- The length of a vector. -/
def asVector? : Shape → Option Nat
  | ⟨[n]⟩ => some n
  | _ => none

/-- The sizes in brackets, separated by a comma and a space. -/
def text (s : Shape) : String :=
  "[" ++ ", ".intercalate (s.dims.map fun d => toString d) ++ "]"

@[simp] theorem count_vector (n : Nat) : (vector n).count = n := by
  simp [vector, count]

@[simp] theorem count_matrix (rows cols : Nat) : (matrix rows cols).count = rows * cols := by
  simp [matrix, count]

end Shape

end GraphTape
