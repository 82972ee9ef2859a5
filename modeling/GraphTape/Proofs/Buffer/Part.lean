import GraphTape.Proofs.Buffer.Fill

/-!
# Stretches with bounds

The operations on buffers are total: what lies outside a buffer reads as zero and is not written.
Here are their partial counterparts. `part?` takes a stretch out of a buffer only if the buffer
has all of it, `demand` stands for an assertion on the lengths of operands, and `within?` works on
a stretch as if it were all there is, and puts the result back.

`within?_eq` says when this is the same as a total operation in place: the operation has to do the
same to the stretch alone, so it can neither read nor write beside it.
-/

namespace GraphTape

/-- A fold does not stop if none of its steps does from a state in which `I` holds, and all keep
`I`. -/
theorem foldlM_eq_some {σ ι : Type} {I : σ → Prop} {step? : σ → ι → Option σ} {step : σ → ι → σ}
    {xs : List ι} (h : ∀ x ∈ xs, ∀ s, I s → step? s x = some (step s x) ∧ I (step s x)) {s : σ}
    (hs : I s) : xs.foldlM step? s = some (xs.foldl step s) ∧ I (xs.foldl step s) := by
  induction xs generalizing s with
  | nil => exact ⟨rfl, hs⟩
  | cons x xs ih =>
    obtain ⟨hstep, hnext⟩ := h x List.mem_cons_self s hs
    rw [List.foldlM_cons, hstep]
    exact ih (fun y hy => h y (List.mem_cons_of_mem x hy)) hnext

theorem mapM_eq_some {ι τ : Type} {f : ι → Option τ} {f' : ι → τ} {xs : List ι}
    (h : ∀ x ∈ xs, f x = some (f' x)) : xs.mapM f = some (xs.map f') := by
  induction xs with
  | nil => rfl
  | cons x xs ih =>
    rw [List.mapM_cons, h x List.mem_cons_self, ih fun y hy => h y (List.mem_cons_of_mem x hy)]
    rfl

namespace Buffer

variable {α β : Type}

/-- A result, if every operand is at least as long as it has to be. -/
def demand (operands : List (Nat × Buffer α)) (result : β) : Option β :=
  if ∀ operand ∈ operands, operand.1 ≤ operand.2.size then some result else none

theorem demand_eq {operands : List (Nat × Buffer α)} {result : β}
    (h : ∀ operand ∈ operands, operand.1 ≤ operand.2.size) :
    demand operands result = some result := if_pos h

/-- The stretch of length `len` at `start`, if the buffer has all of it. -/
def part? (b : Buffer α) (start len : Nat) : Option (Buffer α) :=
  if start + len ≤ b.size then some (b.extract start (start + len)) else none

variable [Zero α]

/-- Works on the stretch of length `len` at `start` alone and puts the result in its place. -/
def within? (b : Buffer α) (start len : Nat) (f : Buffer α → Option (Buffer α)) :
    Option (Buffer α) := do
  let part ← b.part? start len
  let part ← f part
  some (b.write start len (part.view 0))

variable {b b' p p' : Buffer α} {start len : Nat} {x y : Nat → α}

/-- `p` holds the entries of the stretch of length `len` at `start`, and nothing else. -/
structure IsPart (b : Buffer α) (start len : Nat) (p : Buffer α) : Prop where
  size_eq : p.size = len
  view_eq : ∀ i < len, p.view 0 i = b.view start i

theorem exists_part (h : start + len ≤ b.size) :
    ∃ p, b.part? start len = some p ∧ b.IsPart start len p := by
  refine ⟨_, if_pos h, ?_, fun i hi => ?_⟩
  · rw [Array.size_extract]
    omega
  · have hlt : start + i < b.size := by omega
    simp only [view, Array.getD_eq_getD_getElem?, Nat.zero_add]
    rw [Array.getElem?_extract, if_pos (by omega)]

theorem view_zero_add (b : Buffer α) (start i : Nat) : b.view 0 (start + i) = b.view start i := by
  simp only [view, Nat.zero_add]

/-- A stretch holds one thing only. -/
theorem Fills.unique (h : b.Fills start len x p) (h' : b.Fills start len y p')
    (hxy : ∀ i < len, x i = y i) : p = p' := by
  apply Array.ext_getElem?
  intro k
  by_cases hk : start ≤ k ∧ k < start + len
  · have hview := (h.view_eq (k - start) (by omega)).trans
      ((hxy _ (by omega)).trans (h'.view_eq (k - start) (by omega)).symm)
    simp only [view, Array.getD_eq_getD_getElem?, show start + (k - start) = k by omega] at hview
    by_cases hlt : k < b.size
    · have hp : k < p.size := h.size_eq ▸ hlt
      have hp' : k < p'.size := h'.size_eq ▸ hlt
      simpa [hp, hp'] using hview
    · rw [Array.getElem?_eq_none (by rw [h.size_eq]; omega),
        Array.getElem?_eq_none (by rw [h'.size_eq]; omega)]
  · rw [h.getElem?_eq k (by omega), h'.getElem?_eq k (by omega)]

/-- An operation on the stretch alone, and one in place, that fill it with the same. -/
theorem within?_eq {f : Buffer α → Option (Buffer α)} (hroom : start + len ≤ b.size)
    (hin : b.Fills start len x b')
    (hpart : ∀ p, b.IsPart start len p → ∃ p' y, f p = some p' ∧ p.Fills 0 len y p' ∧
      ∀ i < len, y i = x i) : b.within? start len f = some b' := by
  obtain ⟨p, hp, hispart⟩ := exists_part hroom
  obtain ⟨p', y, hf, hfills, hyx⟩ := hpart p hispart
  simp only [within?, hp, hf, Option.bind_eq_bind, Option.bind_some]
  refine congrArg some ((write_fills hroom _).unique hin fun i hi => ?_)
  rw [hfills.view_eq i hi, hyx i hi]

/-- `k` changes every element of a buffer of length `len` by `f`. -/
def Changes (len : Nat) (f : Nat → α → α) (k : Buffer α → Option (Buffer α)) : Prop :=
  ∀ p : Buffer α, p.size = len →
    ∃ f', k p = some (p.update 0 len f') ∧ ∀ i < len, ∀ x, f' i x = f i x

/-- A change of every element of a stretch, made on the stretch alone. -/
theorem within?_eq_update {f : Nat → α → α} {k : Buffer α → Option (Buffer α)}
    (hroom : start + len ≤ b.size) (hk : Changes len f k) :
    b.within? start len k = some (b.update start len f) := by
  refine within?_eq hroom (update_fills hroom f) fun p hp => ?_
  obtain ⟨f', hkp, hsame⟩ := hk p hp.size_eq
  refine ⟨_, _, hkp, update_fills (by rw [hp.size_eq]; omega) f', fun i hi => ?_⟩
  rw [hsame i hi, hp.view_eq i hi]

/-- A filled stretch as a part of a longer one, of which the rest stays. -/
theorem Fills.enlarge {s n : Nat} (h : b.Fills (s + start) len x b') (hle : start + len ≤ n) :
    b.Fills s n (fun j => if start ≤ j ∧ j < start + len then x (j - start) else b.view s j)
      b' := by
  refine ⟨h.size_eq, fun j hj => ?_, fun k hk => h.getElem?_eq k (by omega)⟩
  split
  · have hview := h.view_eq (j - start) (by omega)
    simp only [view] at hview ⊢
    rwa [show s + start + (j - start) = s + j by omega] at hview
  · exact h.view_of_outside (by omega)

/-- An update of a stretch, seen as a change of a longer one. -/
theorem update_fills_of_le {s n : Nat} (hroom : s + n ≤ b.size) (hle : start + len ≤ n)
    (f : Nat → α → α) :
    b.Fills s n (fun j => if start ≤ j ∧ j < start + len then f (j - start) (b.view s j)
      else b.view s j) (b.update (s + start) len f) := by
  refine ((update_fills (by omega) f).enlarge hle).congr fun j _ => ?_
  split
  · rw [view, view, show s + start + (j - start) = s + j by omega]
  · rfl

/-- A change of every element of a stretch of a stretch. -/
theorem within?_within?_eq {s n : Nat} (hroom : s + n ≤ b.size) (hle : start + len ≤ n)
    {f : Nat → α → α} {k : Buffer α → Option (Buffer α)} (hk : Changes len f k) :
    (b.within? s n fun plane => plane.within? start len k) =
      some (b.update (s + start) len f) := by
  refine within?_eq hroom (update_fills_of_le hroom hle f) fun plane hplane => ?_
  have hfills := update_fills_of_le (s := 0) (by rw [hplane.size_eq]; omega) hle f
  rw [Nat.zero_add] at hfills
  refine ⟨plane.update start len f, _, ?_, hfills, fun j hj => ?_⟩
  · exact within?_eq_update (by rw [hplane.size_eq]; exact hle) hk
  · rw [hplane.view_eq j hj]

/-- A stretch of a stretch can be taken out. -/
theorem exists_part_of_part {s n : Nat} (hroom : s + n ≤ b.size) (hle : start + len ≤ n) :
    ∃ plane p, b.part? s n = some plane ∧ plane.part? start len = some p ∧
      b.IsPart (s + start) len p := by
  obtain ⟨plane, hplane, hin⟩ := exists_part hroom
  obtain ⟨p, hp, hsize, hview⟩ := exists_part (show start + len ≤ plane.size by
    rw [hin.size_eq]
    exact hle)
  refine ⟨plane, p, hplane, hp, hsize, fun i hi => ?_⟩
  have hplaneview := hin.view_eq (start + i) (by omega)
  rw [hview i hi]
  simp only [view, Nat.zero_add, ← Nat.add_assoc] at hplaneview ⊢
  exact hplaneview

end Buffer

end GraphTape
