import GraphTape.Error.Basic
import GraphTape.Host.Memory

/-!
# Uniform draws

Tensors with elements drawn at random. The source of randomness is a stream of 64-bit words,
read from the start; each draw says how many words it has read.

* `Random.drawBelow`: a number drawn from an interval, without its upper end.
* `Random.uniform`, `Random.xavier`: tensors of such numbers.
-/

namespace GraphTape.Random

variable {α : Type} [Scalar α]

/-- The number between zero and one, without one, whose 52 binary places are the leading bits of
a word. -/
def unit (w : UInt64) : α := ((w >>> 12).toNat : α) / ((0x10000000000000 : Nat) : α)

/-- How many words a draw reads at most. -/
def maxTries : Nat := 65536

/-- A number drawn from the interval from `low` up to `high`, and the position after the words
read. Scaling can round up to `high`; then the next word is tried, and after the last try the
draw is `low`. -/
def drawBelow (words : Nat → UInt64) (low high : α) : Nat → Nat → α × Nat
  | 0, i => (low, i)
  | tries + 1, i =>
    let x := unit (words i) * (high - low) + low
    if x < high then (x, i + 1) else drawBelow words low high tries (i + 1)

/-- `n` numbers drawn one after the other from position `i` on, and the position after them. -/
def drawMany (words : Nat → UInt64) (low high : α) : Nat → Nat → Buffer α → Buffer α × Nat
  | 0, i, b => (b, i)
  | n + 1, i, b =>
    let (x, i) := drawBelow words low high maxTries i
    drawMany words low high n i (b.push x)

/-- A tensor drawn from the interval from `low` up to `high`, and the number of words read. The
interval has to be finite and not empty. -/
def uniform (h : Host α) (words : Nat → UInt64) (shape : Shape) (low high : α) :
    Except (Error α) ((Tensor × Host α) × Nat) :=
  if !Scalar.isFinite low || !Scalar.isFinite high || decide (high ≤ low) then
    .error (.invalidRange low high)
  else
    let (data, read) := drawMany words low high shape.count 0 #[]
    match h.ofData shape data with
    | .error e => .error e
    | .ok created => .ok (created, read)

/-- A weight drawn from an interval around zero that keeps the scale of what passes through it:
`gain` times the root of six over the sum of both widths, on either side. -/
def xavier (h : Host α) (words : Nat → UInt64) (rows cols : Nat) (gain : α) :
    Except (Error α) ((Tensor × Host α) × Nat) :=
  let a := gain * Scalar.sqrt (((6 : Nat) : α) / ((max (rows + cols) 1 : Nat) : α))
  uniform h words (.matrix rows cols) (-a) a

end GraphTape.Random
