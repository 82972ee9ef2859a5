import GraphTape.Buffer.Matrix
import GraphTape.Tape.Instr

/-!
# Runs

The effect of an instruction, and of a tape as the effects of its instructions one after the
other. A run reads the parameters, one packed input vector and one packed target vector; it
changes the banks, the gradients and the loss.
-/

namespace GraphTape

/-- What a run reads. -/
structure Env (α : Type) where
  /-- The values in the slot of a parameter. -/
  params : Slot → Nat → α
  /-- The packed input vectors of one sample. -/
  input : Nat → α
  /-- The packed target vectors of one sample. -/
  target : Nat → α

/-- What a run changes. -/
structure Work (α : Type) where
  banks : Banks α
  /-- One element for each parameter element, in flat order. -/
  grads : Buffer α
  /-- The loss found so far. -/
  loss : α

variable {α : Type} [Scalar α]

/-- The effect of one instruction. A sum that is to be added to a vector is first computed in
`temp`, so each vector grows by one rounded term at a time. -/
def Instr.run (env : Env α) (s : Work α) : Instr α → Work α
  | .loadInput src pre width =>
    { s with
      banks := s.banks.modifyPre pre fun b start =>
        b.copyFrom start width fun i => env.input (src + i) }
  | .matMul src weight rows cols pre accumulate =>
    let u := s.banks.value.view src
    let w := env.params weight
    if accumulate then
      let temp := s.banks.temp.setRowProduct 0 u w rows cols
      { s with
        banks := { s.banks with temp }.modifyPre pre fun b start =>
          b.addEach start cols (temp.view 0) }
    else
      { s with banks := s.banks.modifyPre pre fun b start =>
          b.setRowProduct start u w rows cols }
  | .addBias bias pre width =>
    { s with banks := s.banks.modifyPre pre fun b start =>
        b.addEach start width (env.params bias) }
  | .activate f pre dst width =>
    let z := s.banks.preView pre
    { s with banks := { s.banks with value := f.apply s.banks.value dst width z } }
  | .outputError loss value target error width accumulate =>
    let a := s.banks.value.view value
    let y := fun i => env.target (target + i)
    let total := s.loss + loss.value width a y
    if accumulate then
      let temp := loss.writeSlopes s.banks.temp 0 width a y
      { s with
        banks := { s.banks with temp, error := s.banks.error.addEach error width (temp.view 0) }
        loss := total }
    else
      { s with
        banks := { s.banks with error := loss.writeSlopes s.banks.error error width a y }
        loss := total }
  | .backprop dstError weight rows cols srcError accumulate =>
    let delta := s.banks.error.view dstError
    let temp := s.banks.temp.setTransposedProduct 0 delta (env.params weight) rows cols
    let error :=
      if accumulate then s.banks.error.addEach srcError rows (temp.view 0)
      else s.banks.error.copyFrom srcError rows (temp.view 0)
    { s with banks := { s.banks with temp, error } }
  | .applyDerivative derivative z error width =>
    { s with
      banks := { s.banks with
        error := Activation.scaleErrors derivative s.banks.error error width
          (s.banks.z.view z) } }
  | .weightGrad value error rows cols grad =>
    { s with
      grads := s.grads.addOuter grad (s.banks.value.view value) (s.banks.error.view error)
        rows cols }
  | .biasGrad error grad width =>
    { s with grads := s.grads.addEach grad width (s.banks.error.view error) }

/-- The effect of a tape. -/
def Tape.run (env : Env α) (tape : Tape α) (s : Work α) : Work α :=
  tape.foldl (Instr.run env) s

@[simp] theorem Tape.run_nil (env : Env α) (s : Work α) : Tape.run env [] s = s := rfl

@[simp] theorem Tape.run_cons (env : Env α) (i : Instr α) (tape : Tape α) (s : Work α) :
    Tape.run env (i :: tape) s = Tape.run env tape (i.run env s) := rfl

theorem Tape.run_append (env : Env α) (front back : Tape α) (s : Work α) :
    Tape.run env (front ++ back) s = Tape.run env back (Tape.run env front s) :=
  List.foldl_append

end GraphTape
