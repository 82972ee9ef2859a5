import GraphTape.Scalar.Basic

/-!
# Double precision

Double-precision floating point as the scalar type that programs run on.
-/

namespace GraphTape

instance : Scalar Float where
  zero := 0
  one := 1
  natCast := Float.ofNat
  exp := Float.exp
  log := Float.log
  sqrt := Float.sqrt
  isFinite := Float.isFinite
  decLt := Float.decLt
  decLe := Float.decLe

theorem Scalar.isNaN_nan : (Scalar.nan : Float).isNaN = true := by decide

end GraphTape
