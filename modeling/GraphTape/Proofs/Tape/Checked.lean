import GraphTape.Proofs.Buffer.Part
import GraphTape.Proofs.Tape.Reverse

/-!
# Runs that check every access

The effect of an instruction as a machine has it that stops at the first slice out of range, or at
the first kernel whose operands are shorter than the dimensions it is given. Every operand is cut
out of its region first, and the kernel sees nothing but these slices. A tape whose instructions
keep to the regions of a layout never stops, and has the effect of `Tape.run`.

* `Instr.run?`, `Tape.run?`: the checked effects.
* `Instr.InRange`: the operands of an instruction keep to the regions of a layout.
* `Tape.run?_eq`: a tape in range does not stop.
* `Tape.inRange_evaluation`, `Tape.inRange_reverse`: the tapes of a graph are in range.
-/

namespace GraphTape

open Buffer (demand)

variable {α : Type} [Scalar α]

/-- What a checked run reads: the slices of the parameters, and the regions of one sample. -/
structure Source (α : Type) where
  param : Slot → Option (Buffer α)
  input : Buffer α
  target : Buffer α

namespace Banks

/-- A pre-activation vector, if its bank has it. -/
def pre? (b : Banks α) (pre : PreSlot) (width : Nat) : Option (Buffer α) :=
  match pre with
  | .scratch => b.pre.part? 0 width
  | .retained offset => b.z.part? offset width

/-- Works on a pre-activation vector alone. -/
def withinPre? (b : Banks α) (pre : PreSlot) (width : Nat)
    (f : Buffer α → Option (Buffer α)) : Option (Banks α) :=
  match pre with
  | .scratch => do
    let out ← b.pre.within? 0 width f
    some { b with pre := out }
  | .retained offset => do
    let out ← b.z.within? offset width f
    some { b with z := out }

end Banks

/-! ## The checked effects -/

/-- The effect of one instruction, unless a slice is out of range or too short. -/
def Instr.run? (r : Source α) (s : Work α) : Instr α → Option (Work α)
  | .loadInput src pre width => do
    let u ← r.input.part? src width
    let banks ← s.banks.withinPre? pre width fun out =>
      demand [(width, u), (width, out)] (out.copyFrom 0 width (u.view 0))
    some { s with banks }
  | .matMul src weight rows cols pre accumulate => do
    let u ← s.banks.value.part? src rows
    let w ← r.param weight
    if accumulate then
      let temp ← demand [(rows, u), (rows * cols, w), (cols, s.banks.temp)]
        (s.banks.temp.setRowProduct 0 (u.view 0) (w.view 0) rows cols)
      let banks ← { s.banks with temp }.withinPre? pre cols fun out =>
        demand [(cols, out), (cols, temp)] (out.addEach 0 cols (temp.view 0))
      some { s with banks }
    else
      let banks ← s.banks.withinPre? pre cols fun out =>
        demand [(rows, u), (rows * cols, w), (cols, out)]
          (out.setRowProduct 0 (u.view 0) (w.view 0) rows cols)
      some { s with banks }
  | .addBias bias pre width => do
    let b ← r.param bias
    let banks ← s.banks.withinPre? pre width fun out =>
      demand [(width, out), (width, b)] (out.addEach 0 width (b.view 0))
    some { s with banks }
  | .activate f pre dst width => do
    let z ← s.banks.pre? pre width
    let value ← s.banks.value.within? dst width fun out =>
      demand [(width, z), (width, out)] (f.apply out 0 width (z.view 0))
    some { s with banks := { s.banks with value } }
  | .outputError loss value target error width accumulate => do
    let a ← s.banks.value.part? value width
    let y ← r.target.part? target width
    let total ← demand [(width, a), (width, y)]
      (s.loss + loss.value width (a.view 0) (y.view 0))
    if accumulate then
      let temp ← demand [(width, a), (width, y), (width, s.banks.temp)]
        (loss.writeSlopes s.banks.temp 0 width (a.view 0) (y.view 0))
      let error ← s.banks.error.within? error width fun out =>
        demand [(width, out), (width, temp)] (out.addEach 0 width (temp.view 0))
      some { s with banks := { s.banks with temp, error }, loss := total }
    else
      let error ← s.banks.error.within? error width fun out =>
        demand [(width, a), (width, y), (width, out)]
          (loss.writeSlopes out 0 width (a.view 0) (y.view 0))
      some { s with banks := { s.banks with error }, loss := total }
  | .backprop dstError weight rows cols srcError accumulate => do
    let delta ← s.banks.error.part? dstError cols
    let w ← r.param weight
    let temp ← demand [(cols, delta), (rows * cols, w), (rows, s.banks.temp)]
      (s.banks.temp.setTransposedProduct 0 (delta.view 0) (w.view 0) rows cols)
    let error ← s.banks.error.within? srcError rows fun out =>
      demand [(rows, out), (rows, temp)]
        (if accumulate then out.addEach 0 rows (temp.view 0)
        else out.copyFrom 0 rows (temp.view 0))
    some { s with banks := { s.banks with temp, error } }
  | .applyDerivative derivative z error width => do
    let z ← s.banks.z.part? z width
    let error ← s.banks.error.within? error width fun out =>
      demand [(width, z), (width, out)]
        (Activation.scaleErrors derivative out 0 width (z.view 0))
    some { s with banks := { s.banks with error } }
  | .weightGrad value error rows cols grad => do
    let u ← s.banks.value.part? value rows
    let delta ← s.banks.error.part? error cols
    let grads ← s.grads.within? grad (rows * cols) fun out =>
      demand [(rows, u), (cols, delta), (rows * cols, out)]
        (out.addOuter 0 (u.view 0) (delta.view 0) rows cols)
    some { s with grads }
  | .biasGrad error grad width => do
    let delta ← s.banks.error.part? error width
    let grads ← s.grads.within? grad width fun out =>
      demand [(width, out), (width, delta)] (out.addEach 0 width (delta.view 0))
    some { s with grads }

/-- The effect of a tape, unless one of its instructions stops. -/
def Tape.run? (r : Source α) (tape : Tape α) (s : Work α) : Option (Work α) :=
  tape.foldlM (Instr.run? r) s

/-! ## Operands in range -/

/-- A pre-activation vector keeps to its bank. -/
def PreSlot.InRange (l : Layout) (mode : Mode) (width : Nat) : PreSlot → Prop
  | .scratch => width ≤ l.scratchLen
  | .retained offset => mode = .training ∧ offset + width ≤ l.dataLen

/-- The operands of an instruction keep to the regions of a layout, and are as long as the
dimensions given to the kernels. -/
def Instr.InRange (l : Layout) (mode : Mode) : Instr α → Prop
  | .loadInput src pre width => src + width ≤ l.inputLen ∧ pre.InRange l mode width
  | .matMul src weight rows cols pre _ =>
    src + rows ≤ l.dataLen ∧ weight ∈ l.slots ∧ weight.len = rows * cols ∧
      cols ≤ l.scratchLen ∧ pre.InRange l mode cols
  | .addBias bias pre width =>
    bias ∈ l.slots ∧ bias.len = width ∧ pre.InRange l mode width
  | .activate _ pre dst width => dst + width ≤ l.dataLen ∧ pre.InRange l mode width
  | .outputError _ value target error width _ =>
    mode = .training ∧ value + width ≤ l.dataLen ∧ target + width ≤ l.targetLen ∧
      error + width ≤ l.dataLen ∧ width ≤ l.scratchLen
  | .backprop dstError weight rows cols srcError _ =>
    mode = .training ∧ dstError + cols ≤ l.dataLen ∧ weight ∈ l.slots ∧
      weight.len = rows * cols ∧ srcError + rows ≤ l.dataLen ∧ rows ≤ l.scratchLen
  | .applyDerivative _ z error width =>
    mode = .training ∧ z + width ≤ l.dataLen ∧ error + width ≤ l.dataLen
  | .weightGrad value error rows cols grad =>
    mode = .training ∧ value + rows ≤ l.dataLen ∧ error + cols ≤ l.dataLen ∧
      grad + rows * cols ≤ l.paramLen
  | .biasGrad error grad width =>
    mode = .training ∧ error + width ≤ l.dataLen ∧ grad + width ≤ l.paramLen

/-- A checked run reads what `env` says, from regions as long as the layout asks for. -/
structure Source.Serves (r : Source α) (l : Layout) (mode : Mode) (env : Env α) : Prop where
  param : ∀ slot ∈ l.slots, ∃ p, r.param slot = some p ∧ p.size = slot.len ∧
    ∀ i < slot.len, p.view 0 i = env.params slot i
  input_size : r.input.size = l.inputLen
  input : ∀ i < l.inputLen, r.input.view 0 i = env.input i
  target_size : mode = .training → r.target.size = l.targetLen
  target : mode = .training → ∀ i < l.targetLen, r.target.view 0 i = env.target i

/-- The regions that a run changes are as long as the layout asks for. -/
structure Work.Room (s : Work α) (l : Layout) (mode : Mode) : Prop where
  banks : s.banks.Room l mode
  grads : mode = .training → s.grads.size = l.paramLen

/-! ## One instruction -/

section Instructions

variable {l : Layout} {mode : Mode} {r : Source α} {env : Env α} {s : Work α}

omit [Scalar α] in
theorem PreSlot.InRange.le {pre : PreSlot} {width : Nat} (h : pre.InRange l mode width)
    {b : Banks α} (hb : b.Room l mode) : pre.start + width ≤ (b.preBank pre).size := by
  cases pre with
  | scratch =>
    have hwidth : width ≤ l.scratchLen := h
    have hsize := hb.pre
    simp only [PreSlot.start, Banks.preBank]
    omega
  | retained offset =>
    obtain ⟨hmode, hle⟩ := h
    have hsize := hb.z hmode
    simp only [PreSlot.start, Banks.preBank]
    omega

/-- A pre-activation vector that is in range can be taken out. -/
theorem exists_pre {b : Banks α} {pre : PreSlot} {width : Nat}
    (h : pre.start + width ≤ (b.preBank pre).size) :
    ∃ p, b.pre? pre width = some p ∧ p.size = width ∧
      ∀ i < width, p.view 0 i = b.preView pre i := by
  obtain ⟨p, hp, hsize, hview⟩ := Buffer.exists_part h
  refine ⟨p, ?_, hsize, fun i hi => ?_⟩
  · rw [← hp]
    cases pre <;> rfl
  · rw [hview i hi, Banks.preView_eq]

/-- A kernel on a pre-activation vector that is in range. -/
theorem withinPre?_eq {b : Banks α} {pre : PreSlot} {width : Nat} {x : Nat → α}
    {f : Buffer α → Option (Buffer α)} {k : Buffer α → Nat → Buffer α}
    (h : pre.start + width ≤ (b.preBank pre).size)
    (hin : (b.preBank pre).Fills pre.start width x (k (b.preBank pre) pre.start))
    (hpart : ∀ p, (b.preBank pre).IsPart pre.start width p → ∃ p' y, f p = some p' ∧
      p.Fills 0 width y p' ∧ ∀ i < width, y i = x i) :
    b.withinPre? pre width f = some (b.modifyPre pre k) := by
  have hwithin := Buffer.within?_eq h hin hpart
  cases pre with
  | scratch =>
    simp only [Banks.withinPre?]
    simp only [Banks.preBank, PreSlot.start] at hwithin
    rw [hwithin]
    rfl
  | retained offset =>
    simp only [Banks.withinPre?]
    simp only [Banks.preBank, PreSlot.start] at hwithin
    rw [hwithin]
    rfl

theorem run?_loadInput (hr : r.Serves l mode env) (hs : s.Room l mode) {src width : Nat}
    {pre : PreSlot} (hi : (Instr.loadInput (α := α) src pre width).InRange l mode) :
    (Instr.loadInput src pre width).run? r s =
      some ((Instr.loadInput src pre width).run env s) := by
  obtain ⟨hsrc, hpre⟩ := hi
  obtain ⟨u, hu, hsize, hview⟩ := Buffer.exists_part (hr.input_size ▸ hsrc)
  have hle := hpre.le hs.banks
  rw [Instr.run?, hu, Option.bind_eq_bind, Option.bind_some,
    withinPre?_eq hle (k := fun b start => b.copyFrom start width fun i => env.input (src + i))
      (Buffer.copyFrom_fills hle _)]
  · rfl
  · intro p hp
    refine ⟨_, _, Buffer.demand_eq (by simp [hsize, hp.size_eq]),
      Buffer.copyFrom_fills (by rw [hp.size_eq]; omega) _, fun i hi => ?_⟩
    rw [hview i hi, ← Buffer.view_zero_add, hr.input _ (by omega)]

/-- The element of a matrix in row `r` and column `c` is among its elements. -/
theorem index_lt {r rows c cols : Nat} (hr : r < rows) (hc : c < cols) :
    r * cols + c < rows * cols := by
  have hrow := Buffer.row_le hr cols
  omega

theorem run?_matMul (hr : r.Serves l mode env) (hs : s.Room l mode) {src rows cols : Nat}
    {weight : Slot} {pre : PreSlot} {accumulate : Bool}
    (hi : (Instr.matMul (α := α) src weight rows cols pre accumulate).InRange l mode) :
    (Instr.matMul src weight rows cols pre accumulate).run? r s =
      some ((Instr.matMul src weight rows cols pre accumulate).run env s) := by
  obtain ⟨hsrc, hslot, hlen, hcols, hpre⟩ := hi
  obtain ⟨u, hu, husize, huview⟩ := Buffer.exists_part (hs.banks.value.symm ▸ hsrc)
  obtain ⟨w, hw, hwsize, hwview⟩ := hr.param weight hslot
  rw [hlen] at hwsize hwview
  have hle := hpre.le hs.banks
  have hproduct : ∀ c < cols, (Scalar.sum rows fun i => u.view 0 i * w.view 0 (i * cols + c)) =
      Scalar.sum rows fun i => s.banks.value.view src i * env.params weight (i * cols + c) :=
    fun c hc => Scalar.sum_congr fun i hi => by rw [huview i hi, hwview _ (index_lt hi hc)]
  simp only [Instr.run?, hu, hw, Option.bind_eq_bind, Option.bind_some]
  cases accumulate with
  | false =>
    rw [if_neg Bool.false_ne_true, withinPre?_eq hle
      (k := fun b start =>
        b.setRowProduct start (s.banks.value.view src) (env.params weight) rows cols)
      (Buffer.setRowProduct_fills hle _ _ _)]
    · rfl
    · intro p hp
      exact ⟨_, _, Buffer.demand_eq (by simp [husize, hwsize, hp.size_eq]),
        Buffer.setRowProduct_fills (by rw [hp.size_eq]; omega) _ _ _, hproduct⟩
  | true =>
    have htemp : 0 + cols ≤ s.banks.temp.size := by rw [hs.banks.temp]; omega
    have hsame := (Buffer.setRowProduct_fills htemp (u.view 0) (w.view 0) rows).unique
      (Buffer.setRowProduct_fills htemp (s.banks.value.view src) (env.params weight) rows) hproduct
    rw [if_pos rfl, hsame, Buffer.demand_eq (by simp [husize, hwsize]; omega)]
    let banks : Banks α :=
      { s.banks with
        temp := s.banks.temp.setRowProduct 0 (s.banks.value.view src) (env.params weight) rows
          cols }
    have hroom : banks.Room l mode :=
      { hs.banks with temp := (Buffer.size_setRowProduct ..).trans hs.banks.temp }
    have hle := hpre.le hroom
    simp only [Option.bind_some]
    rw [withinPre?_eq hle (k := fun b start => b.addEach start cols (banks.temp.view 0))
      (Buffer.addEach_fills hle _)]
    · rfl
    · intro p hp
      refine ⟨_, _, Buffer.demand_eq ?_,
        Buffer.addEach_fills (by rw [hp.size_eq]; omega) (banks.temp.view 0), fun c hc => ?_⟩
      · have hsize := hroom.temp
        simp only [banks] at hsize
        simp [hp.size_eq, hsize, hcols]
      · rw [hp.view_eq c hc]

theorem run?_addBias (hr : r.Serves l mode env) (hs : s.Room l mode) {bias : Slot} {width : Nat}
    {pre : PreSlot} (hi : (Instr.addBias (α := α) bias pre width).InRange l mode) :
    (Instr.addBias bias pre width).run? r s = some ((Instr.addBias bias pre width).run env s) := by
  obtain ⟨hslot, rfl, hpre⟩ := hi
  obtain ⟨w, hw, hwsize, hwview⟩ := hr.param bias hslot
  have hle := hpre.le hs.banks
  simp only [Instr.run?, hw, Option.bind_eq_bind, Option.bind_some]
  rw [withinPre?_eq hle (k := fun b start => b.addEach start bias.len (env.params bias))
    (Buffer.addEach_fills hle _)]
  · rfl
  · intro p hp
    refine ⟨_, _, Buffer.demand_eq (by simp [hp.size_eq, hwsize]),
      Buffer.addEach_fills (by rw [hp.size_eq]; omega) _, fun i hi => ?_⟩
    rw [hp.view_eq i hi, hwview i hi]

theorem run?_activate (hs : s.Room l mode) (r : Source α) {f : Activation α} {dst width : Nat}
    {pre : PreSlot} (hi : (Instr.activate f pre dst width).InRange l mode) :
    (Instr.activate f pre dst width).run? r s =
      some ((Instr.activate f pre dst width).run env s) := by
  obtain ⟨hdst, hpre⟩ := hi
  obtain ⟨z, hz, hzsize, hzview⟩ := exists_pre (hpre.le hs.banks)
  have hle : dst + width ≤ s.banks.value.size := hs.banks.value.symm ▸ hdst
  simp only [Instr.run?, hz, Option.bind_eq_bind, Option.bind_some]
  rw [Buffer.within?_eq hle (f.apply_fills hle (x := s.banks.preView pre))]
  · rfl
  · intro p hp
    exact ⟨_, _, Buffer.demand_eq (by simp [hp.size_eq, hzsize]),
      f.apply_fills (by rw [hp.size_eq]; omega), fun i hi => f.vector_congr hzview hi⟩

theorem run?_outputError (hr : r.Serves l mode env) (hs : s.Room l mode) {loss : Loss}
    {value target error width : Nat} {accumulate : Bool}
    (hi : (Instr.outputError (α := α) loss value target error width accumulate).InRange l mode) :
    (Instr.outputError loss value target error width accumulate).run? r s =
      some ((Instr.outputError loss value target error width accumulate).run env s) := by
  obtain ⟨hmode, hvalue, htarget, herror, hwidth⟩ := hi
  obtain ⟨a, ha, hasize, haview⟩ := Buffer.exists_part (hs.banks.value.symm ▸ hvalue)
  obtain ⟨y, hy, hysize, hyview⟩ := Buffer.exists_part ((hr.target_size hmode).symm ▸ htarget)
  have hle : error + width ≤ s.banks.error.size := (hs.banks.error hmode).symm ▸ herror
  have hyenv : ∀ i < width, y.view 0 i = env.target (target + i) := fun i hi => by
    rw [hyview i hi, ← Buffer.view_zero_add, hr.target hmode _ (by omega)]
  have hslope : ∀ i < width, loss.slope width (a.view 0) (y.view 0) i =
      loss.slope width (s.banks.value.view value) (fun i => env.target (target + i)) i :=
    fun i hi => loss.slope_congr (haview i hi) (hyenv i hi)
  simp only [Instr.run?, ha, hy, Option.bind_eq_bind, Option.bind_some]
  rw [Buffer.demand_eq (by simp [hasize, hysize]), Option.bind_some,
    loss.value_congr haview hyenv]
  cases accumulate with
  | false =>
    rw [if_neg Bool.false_ne_true, Buffer.within?_eq hle
      (loss.writeSlopes_fills (a := s.banks.value.view value)
        (y := fun i => env.target (target + i)) hle)]
    · rfl
    · intro p hp
      exact ⟨_, _, Buffer.demand_eq (by simp [hasize, hysize, hp.size_eq]),
        loss.writeSlopes_fills (by rw [hp.size_eq]; omega), hslope⟩
  | true =>
    have htemp : 0 + width ≤ s.banks.temp.size := by rw [hs.banks.temp]; omega
    have hsame := (loss.writeSlopes_fills htemp).unique (loss.writeSlopes_fills htemp) hslope
    rw [if_pos rfl, hsame, Buffer.demand_eq (by simp [hasize, hysize]; omega), Option.bind_some,
      Buffer.within?_eq hle (Buffer.addEach_fills hle _)]
    · rfl
    · intro p hp
      refine ⟨_, _, Buffer.demand_eq ?_, Buffer.addEach_fills (by rw [hp.size_eq]; omega) _,
        fun i hi => by rw [hp.view_eq i hi]⟩
      simp [hp.size_eq, Loss.writeSlopes]
      omega

theorem run?_backprop (hr : r.Serves l mode env) (hs : s.Room l mode)
    {dstError rows cols srcError : Nat} {weight : Slot} {accumulate : Bool}
    (hi : (Instr.backprop (α := α) dstError weight rows cols srcError accumulate).InRange l mode) :
    (Instr.backprop dstError weight rows cols srcError accumulate).run? r s =
      some ((Instr.backprop dstError weight rows cols srcError accumulate).run env s) := by
  obtain ⟨hmode, hdst, hslot, hlen, hsrc, hrows⟩ := hi
  have herror := hs.banks.error hmode
  obtain ⟨delta, hd, hdsize, hdview⟩ := Buffer.exists_part (herror.symm ▸ hdst)
  obtain ⟨w, hw, hwsize, hwview⟩ := hr.param weight hslot
  rw [hlen] at hwsize hwview
  have hle : srcError + rows ≤ s.banks.error.size := herror.symm ▸ hsrc
  have htemp : 0 + rows ≤ s.banks.temp.size := by rw [hs.banks.temp]; omega
  have hsame := (Buffer.setTransposedProduct_fills htemp (delta.view 0) (w.view 0) cols).unique
    (Buffer.setTransposedProduct_fills htemp (s.banks.error.view dstError) (env.params weight)
      cols) fun i hi => Scalar.sum_congr fun c hc => by
        rw [hdview c hc, hwview _ (index_lt hi hc)]
  simp only [Instr.run?, hd, hw, Option.bind_eq_bind, Option.bind_some]
  rw [hsame, Buffer.demand_eq (by simp [hdsize, hwsize]; omega), Option.bind_some]
  have hsize : rows ≤ (s.banks.temp.setTransposedProduct 0 (s.banks.error.view dstError)
      (env.params weight) rows cols).size := by
    rw [Buffer.size_setTransposedProduct]
    omega
  cases accumulate with
  | false =>
    rw [Buffer.within?_eq hle (Buffer.copyFrom_fills hle _)]
    · rfl
    · intro p hp
      exact ⟨_, _, Buffer.demand_eq (by simpa [hp.size_eq] using hsize),
        Buffer.copyFrom_fills (by rw [hp.size_eq]; omega) _, fun _ _ => rfl⟩
  | true =>
    rw [Buffer.within?_eq hle (Buffer.addEach_fills hle _)]
    · rfl
    · intro p hp
      exact ⟨_, _, Buffer.demand_eq (by simpa [hp.size_eq] using hsize),
        Buffer.addEach_fills (by rw [hp.size_eq]; omega) _, fun i hi => by rw [hp.view_eq i hi]⟩

theorem run?_applyDerivative (hs : s.Room l mode) (r : Source α) {derivative : α → α}
    {z error width : Nat}
    (hi : (Instr.applyDerivative derivative z error width).InRange l mode) :
    (Instr.applyDerivative derivative z error width).run? r s =
      some ((Instr.applyDerivative derivative z error width).run env s) := by
  obtain ⟨hmode, hz, herror⟩ := hi
  obtain ⟨p, hp, hpsize, hpview⟩ := Buffer.exists_part ((hs.banks.z hmode).symm ▸ hz)
  have hle : error + width ≤ s.banks.error.size := (hs.banks.error hmode).symm ▸ herror
  simp only [Instr.run?, hp, Option.bind_eq_bind, Option.bind_some]
  rw [Buffer.within?_eq hle (Activation.scaleErrors_fills derivative hle _)]
  · rfl
  · intro q hq
    refine ⟨_, _, Buffer.demand_eq (by simp [hpsize, hq.size_eq]),
      Activation.scaleErrors_fills derivative (by rw [hq.size_eq]; omega) _, fun i hi => ?_⟩
    rw [hq.view_eq i hi, hpview i hi]

theorem run?_weightGrad (hs : s.Room l mode) (r : Source α) {value error rows cols grad : Nat}
    (hi : (Instr.weightGrad (α := α) value error rows cols grad).InRange l mode) :
    (Instr.weightGrad value error rows cols grad).run? r s =
      some ((Instr.weightGrad value error rows cols grad).run env s) := by
  obtain ⟨hmode, hvalue, herror, hgrad⟩ := hi
  obtain ⟨u, hu, husize, huview⟩ := Buffer.exists_part (hs.banks.value.symm ▸ hvalue)
  obtain ⟨d, hd, hdsize, hdview⟩ := Buffer.exists_part ((hs.banks.error hmode).symm ▸ herror)
  have hle : grad + rows * cols ≤ s.grads.size := (hs.grads hmode).symm ▸ hgrad
  simp only [Instr.run?, hu, hd, Option.bind_eq_bind, Option.bind_some]
  rw [Buffer.within?_eq hle (Buffer.addOuter_fills hle _ _)]
  · rfl
  · intro p hp
    refine ⟨_, _, Buffer.demand_eq (by simp [husize, hdsize, hp.size_eq]),
      Buffer.addOuter_fills (by rw [hp.size_eq]; omega) _ _, fun k hk => ?_⟩
    have hcols : 0 < cols := Nat.pos_of_mul_pos_left (Nat.zero_lt_of_lt hk)
    rw [hp.view_eq k hk, huview _ (Nat.div_lt_of_lt_mul (Nat.mul_comm rows cols ▸ hk)),
      hdview _ (Nat.mod_lt k hcols)]

theorem run?_biasGrad (hs : s.Room l mode) (r : Source α) {error grad width : Nat}
    (hi : (Instr.biasGrad (α := α) error grad width).InRange l mode) :
    (Instr.biasGrad error grad width).run? r s =
      some ((Instr.biasGrad error grad width).run env s) := by
  obtain ⟨hmode, herror, hgrad⟩ := hi
  obtain ⟨d, hd, hdsize, hdview⟩ := Buffer.exists_part ((hs.banks.error hmode).symm ▸ herror)
  have hle : grad + width ≤ s.grads.size := (hs.grads hmode).symm ▸ hgrad
  simp only [Instr.run?, hd, Option.bind_eq_bind, Option.bind_some]
  rw [Buffer.within?_eq hle (Buffer.addEach_fills hle _)]
  · rfl
  · intro p hp
    refine ⟨_, _, Buffer.demand_eq (by simp [hp.size_eq, hdsize]),
      Buffer.addEach_fills (by rw [hp.size_eq]; omega) _, fun i hi => ?_⟩
    rw [hp.view_eq i hi, hdview i hi]

/-- An instruction in range does not stop. -/
theorem Instr.run?_eq (hr : r.Serves l mode env) (hs : s.Room l mode) {i : Instr α}
    (hi : i.InRange l mode) : i.run? r s = some (i.run env s) := by
  cases i with
  | loadInput => exact run?_loadInput hr hs hi
  | matMul => exact run?_matMul hr hs hi
  | addBias => exact run?_addBias hr hs hi
  | activate => exact run?_activate hs r hi
  | outputError => exact run?_outputError hr hs hi
  | backprop => exact run?_backprop hr hs hi
  | applyDerivative => exact run?_applyDerivative hs r hi
  | weightGrad => exact run?_weightGrad hs r hi
  | biasGrad => exact run?_biasGrad hs r hi

end Instructions

/-! ## Whole tapes -/

omit [Scalar α] in
theorem Work.Room.modifyPre {s : Work α} {l : Layout} {mode : Mode} (hs : s.Room l mode)
    (pre : PreSlot) {k : Buffer α → Nat → Buffer α} (hk : ∀ c start, (k c start).size = c.size) :
    Work.Room { s with banks := s.banks.modifyPre pre k } l mode := by
  cases pre with
  | scratch => exact ⟨{ hs.banks with pre := (hk _ _).trans hs.banks.pre }, hs.grads⟩
  | retained offset =>
    exact ⟨{ hs.banks with z := fun hmode => (hk _ _).trans (hs.banks.z hmode) }, hs.grads⟩

@[simp] theorem Activation.size_apply (f : Activation α) (b : Buffer α) (start n : Nat)
    (x : Nat → α) : (f.apply b start n x).size = b.size := by
  cases f <;> simp [Activation.apply, Activation.writeSoftmax, Buffer.setMap]

/-- Every instruction keeps the sizes of all regions. -/
theorem Work.Room.run {l : Layout} {mode : Mode} {s : Work α} (hs : s.Room l mode) (env : Env α)
    (i : Instr α) : (i.run env s).Room l mode := by
  have hbanks := hs.banks
  have hgrads := hs.grads
  cases i with
  | loadInput =>
    rw [Instr.run]
    exact hs.modifyPre _ fun _ _ => Buffer.size_write ..
  | matMul src weight rows cols pre accumulate =>
    cases accumulate with
    | false =>
      rw [Instr.run, if_neg Bool.false_ne_true]
      exact hs.modifyPre _ fun _ _ => Buffer.size_setRowProduct ..
    | true =>
      let temp :=
        s.banks.temp.setRowProduct 0 (s.banks.value.view src) (env.params weight) rows cols
      have htemp : Work.Room { s with banks := { s.banks with temp } } l mode :=
        ⟨{ hbanks with temp := (Buffer.size_setRowProduct ..).trans hbanks.temp }, hgrads⟩
      rw [Instr.run, if_pos rfl]
      exact htemp.modifyPre _ fun _ _ => Buffer.size_update ..
  | addBias =>
    rw [Instr.run]
    exact hs.modifyPre _ fun _ _ => Buffer.size_update ..
  | activate =>
    exact ⟨{ hbanks with value := (Activation.size_apply ..).trans hbanks.value }, hgrads⟩
  | outputError loss value target error width accumulate =>
    cases accumulate with
    | false =>
      refine ⟨{ hbanks with error := fun hmode => ?_ }, hgrads⟩
      exact (Buffer.size_write ..).trans (hbanks.error hmode)
    | true =>
      refine ⟨{ hbanks with temp := ?_, error := fun hmode => ?_ }, hgrads⟩
      · exact (Buffer.size_write ..).trans hbanks.temp
      · exact (Buffer.size_update ..).trans (hbanks.error hmode)
  | backprop dstError weight rows cols srcError accumulate =>
    refine ⟨{ hbanks with temp := ?_, error := fun hmode => ?_ }, hgrads⟩
    · exact (Buffer.size_setTransposedProduct ..).trans hbanks.temp
    · cases accumulate with
      | false => exact (Buffer.size_write ..).trans (hbanks.error hmode)
      | true => exact (Buffer.size_update ..).trans (hbanks.error hmode)
  | applyDerivative =>
    refine ⟨{ hbanks with error := fun hmode => ?_ }, hgrads⟩
    exact (Buffer.size_update ..).trans (hbanks.error hmode)
  | weightGrad => exact ⟨hbanks, fun hmode => (Buffer.size_addOuter ..).trans (hgrads hmode)⟩
  | biasGrad => exact ⟨hbanks, fun hmode => (Buffer.size_update ..).trans (hgrads hmode)⟩

/-- A tape whose instructions are in range does not stop, and keeps the sizes of all regions. -/
theorem Tape.run?_eq {l : Layout} {mode : Mode} {r : Source α} {env : Env α}
    (hr : r.Serves l mode env) {tape : Tape α} (ht : ∀ i ∈ tape, i.InRange l mode) {s : Work α}
    (hs : s.Room l mode) :
    Tape.run? r tape s = some (Tape.run env tape s) ∧ (Tape.run env tape s).Room l mode := by
  exact foldlM_eq_some (I := fun s => s.Room l mode)
    (fun i hi s hs => ⟨Instr.run?_eq hr hs (ht i hi), hs.run env i⟩) hs

/-! ## The tapes of a graph -/

section Graph

variable {g : Graph α} {l : Layout} {mode : Mode} {n : Nat}

omit [Scalar α] in
theorem preSlot_inRange (hl : l.Fits g) (hn : n < g.numNodes) :
    (Tape.preSlot mode (l.nodeOf g n)).InRange l mode (g.width n) := by
  cases mode with
  | inference => exact hl.width_le n hn
  | training => exact ⟨rfl, hl.data.le n hn⟩

theorem inRange_evaluateNode (hl : l.Fits g) (hn : n < g.numNodes) :
    ∀ i ∈ Tape.evaluateNode g l mode n, i.InRange l mode := by
  have hpre : (Tape.preSlot mode (l.nodeOf g n)).InRange l mode (g.width n) :=
    preSlot_inRange hl hn
  intro i hi
  rw [Tape.evaluateNode, hl.node n hn, List.mem_append, List.mem_singleton] at hi
  rcases hi with hi | rfl
  · by_cases hsource : g.isSource n = true
    · simp only [Tape.gather, Layout.nodeOf, hsource, if_true, List.mem_singleton] at hi
      subst hi
      exact ⟨hl.input.le n ⟨hn, hsource⟩, hpre⟩
    · simp only [Tape.gather, Layout.nodeOf, hsource, if_false, Bool.false_eq_true,
        hl.afferentSlots_eq hn, List.mem_append, List.mem_map] at hi
      rcases hi with ⟨⟨edge, k⟩, hedge, rfl⟩ | ⟨bias, hbias, rfl⟩
      · obtain ⟨e, he, rfl⟩ := List.mem_map.1 (List.fst_mem_of_mem_zipIdx hedge)
        obtain ⟨hlt, rfl⟩ := g.mem_afferents.1 he
        have hweight := Graph.isSome_tensor?_weight.2 hlt
        exact ⟨hl.data.le _ (g.src_lt hlt), hl.mem_slots.2 ⟨_, hweight, rfl⟩, hl.weight_len e hlt,
          hl.width_le _ hn, hpre⟩
      · obtain ⟨t, ht, rfl⟩ := Option.map_eq_some_iff.1 (Option.mem_toList.1 hbias)
        have hsome : (g.bias? n).isSome = true := by rw [ht, Option.isSome_some]
        exact ⟨hl.mem_slots.2 ⟨.bias n, hsome, rfl⟩, hl.bias_len n hn hsome, hpre⟩
  · exact ⟨hl.data.le n hn, hpre⟩

/-- The evaluation tapes of a scheduled graph keep to the regions of its layout. -/
theorem Tape.inRange_evaluation {s : Schedule} (hs : g.schedule = .ok s) (hl : l.Fits g) :
    ∀ i ∈ Tape.evaluation g s l mode, i.InRange l mode := by
  intro i hi
  obtain ⟨n, hn, hi⟩ := List.mem_flatMap.1 hi
  exact inRange_evaluateNode hl ((Graph.linearizes_of_schedule hs).mem_iff n |>.1 hn) i hi

omit [Scalar α] in
theorem inRange_lossInstrs (hl : l.Fits g) (hn : n < g.numNodes) (loss : Loss)
    (accumulate : Bool) :
    ∀ i ∈ Tape.lossInstrs g l loss n accumulate, i.InRange l .training := by
  intro i hi
  rw [Tape.lossInstrs] at hi
  split at hi
  · rename_i hisout
    obtain rfl := List.mem_singleton.1 hi
    exact ⟨rfl, hl.data.le n hn, hl.target.le n ⟨hn, hisout⟩, hl.data.le n hn, hl.width_le n hn⟩
  · simp at hi

omit [Scalar α] in
theorem inRange_gradientInstr (hl : l.Fits g) {o : Owner} (ho : (g.tensor? o).isSome = true) :
    (Tape.gradientInstr g l o).InRange l .training := by
  have hflat := hl.flat_le o ho
  cases o with
  | weight e =>
    have hlt := Graph.isSome_tensor?_weight.1 ho
    rw [hl.weight_len e hlt] at hflat
    exact ⟨rfl, hl.data.le _ (g.src_lt hlt), hl.data.le _ (g.dst_lt hlt), hflat⟩
  | bias n =>
    have hlt := Graph.lt_of_isSome_bias? ho
    rw [hl.bias_len n hlt ho] at hflat
    exact ⟨rfl, hl.data.le _ hlt, hflat⟩

theorem inRange_reverseNode (hl : l.Fits g) (hn : n < g.numNodes) (loss : Loss) :
    ∀ i ∈ Tape.reverseNode g l loss n, i.InRange l .training := by
  intro i hi
  cases hd : g.derivative? n with
  | none =>
    rw [Tape.reverseNode_of_none hl hn loss hd] at hi
    exact inRange_lossInstrs hl hn loss false i hi
  | some derivative =>
    rw [Tape.reverseNode_of_some hl hn loss hd] at hi
    simp only [List.mem_append, List.mem_map, List.mem_cons] at hi
    rcases hi with (⟨⟨edge, k⟩, hedge, rfl⟩ | hi) | rfl | ⟨o, ho, rfl⟩
    · obtain ⟨e, he, rfl⟩ := List.mem_map.1 (List.fst_mem_of_mem_zipIdx hedge)
      obtain ⟨hlt, rfl⟩ := g.mem_efferents.1 he
      exact ⟨rfl, hl.data.le _ (g.dst_lt hlt),
        hl.mem_slots.2 ⟨_, Graph.isSome_tensor?_weight.2 hlt, rfl⟩, hl.weight_len e hlt,
        hl.data.le _ hn, hl.width_le _ hn⟩
    · exact inRange_lossInstrs hl hn loss _ i hi
    · exact ⟨rfl, hl.data.le n hn, hl.data.le n hn⟩
    · exact inRange_gradientInstr hl (Graph.mem_entering.1 ho).1

/-- The sweeps of a graph keep to the regions of its layout. -/
theorem Tape.inRange_reverse {loss : Loss} {tape : Tape α} (hl : l.Fits g)
    (hr : Tape.reverse g l loss = .ok tape) : ∀ i ∈ tape, i.InRange l .training := by
  obtain ⟨-, hlength, rfl⟩ := Tape.reverse_spec hr
  intro i hi
  obtain ⟨n, hn, hi⟩ := List.mem_flatMap.1 hi
  exact inRange_reverseNode hl ((Graph.linearizes_settle hlength).mem_iff n |>.1 hn) loss i hi

end Graph

end GraphTape
