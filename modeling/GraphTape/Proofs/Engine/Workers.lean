import GraphTape.Proofs.Engine.Faults
import GraphTape.Proofs.Engine.Forward
import Mathlib.Data.List.Forall2

/-!
# Evaluating many samples

Many samples are packed into one buffer, a stride each, and then evaluated on banks that nothing
was evaluated on before. The output for a sample still depends on nothing but the vectors of the
sample and the live parameters, and it does not matter when its worker runs.

* `Layout.packStrides_eq_error_iff`: packing ends at the first bad sample.
* `Engine.gather_eq_map`: the results of workers, in whatever order they run.
* `Engine.Answers`: outputs that are read off the meaning of the graph at a sample.
* `Engine.Sound.answers_of_evaluateMany`, `Engine.Sound.answers_of_forward`: both ways to evaluate
  a sample answer it, and `Engine.eq_of_answers`: there is one answer only.
-/

namespace GraphTape

variable {α : Type} [Scalar α]

/-! ## Packing -/

namespace Layout

variable {l : Layout} {samples : List (Sample α)}

/-- The first fault of a sample, wherever it is packed to. -/
def inputFault? (l : Layout) (sample : Sample α) : Option (Error α) :=
  (l.packInputs 0 sample #[]).1

theorem fst_packInputs (l : Layout) (base : Nat) (sample : Sample α) (b : Buffer α) :
    (l.packInputs base sample b).1 = l.inputFault? sample :=
  fst_pack base 0 rfl sample.inputs b #[]

theorem packStrides_cons (i : Nat) {sample : Sample α} (samples : List (Sample α)) (b : Buffer α)
    (h : l.inputFault? sample = none) :
    ∃ c, l.packStrides i (sample :: samples) b = l.packStrides (i + 1) samples c := by
  have hfault := l.fst_packInputs (i * l.inputLen) sample b
  rw [packStrides]
  generalize l.packInputs (i * l.inputLen) sample b = packed at hfault ⊢
  obtain ⟨fault, c⟩ := packed
  obtain rfl : fault = none := hfault.trans h
  exact ⟨c, rfl⟩

theorem packStrides_cons_of_fault {i : Nat} {sample : Sample α} {b : Buffer α} {fault : Error α}
    (h : l.inputFault? sample = some fault) :
    l.packStrides i (sample :: samples) b = .error fault := by
  have hfault := l.fst_packInputs (i * l.inputLen) sample b
  rw [packStrides]
  generalize l.packInputs (i * l.inputLen) sample b = packed at hfault ⊢
  obtain ⟨found, c⟩ := packed
  obtain rfl : found = some fault := hfault.trans h
  rfl

/-- Packing ends at the first bad sample. -/
theorem packStrides_eq_error_iff {i : Nat} {b : Buffer α} {fault : Error α} :
    l.packStrides i samples b = .error fault ↔
      ∃ before sample after, samples = before ++ sample :: after ∧
        (∀ other ∈ before, l.inputFault? other = none) ∧ l.inputFault? sample = some fault := by
  induction samples generalizing i b with
  | nil => simp [packStrides]
  | cons sample samples ih =>
    have hfirst := exists_append_cons_iff (P := fun other => l.inputFault? other = none)
      (Q := fun _ other => l.inputFault? other = some fault) sample samples
    rw [hfirst]
    cases hfault : l.inputFault? sample with
    | some found => simp [packStrides_cons_of_fault hfault]
    | none =>
      obtain ⟨c, hc⟩ := packStrides_cons i samples b hfault
      simp [hc, ih]

/-- Samples are packed if none of them is bad. -/
theorem inputFault?_eq_none_of_packStrides {i : Nat} {b b' : Buffer α}
    (h : l.packStrides i samples b = .ok b') : ∀ sample ∈ samples, l.inputFault? sample = none := by
  induction samples generalizing i b with
  | nil => simp
  | cons sample samples ih =>
    cases hfault : l.inputFault? sample with
    | some found =>
      rw [packStrides_cons_of_fault hfault] at h
      contradiction
    | none =>
      obtain ⟨c, hc⟩ := packStrides_cons i samples b hfault
      exact List.forall_mem_cons.2 ⟨hfault, ih (hc ▸ h)⟩

end Layout

/-! ## Workers -/

namespace Engine

/-- Every worker leaves its result in a place of its own, so their order does not matter. -/
theorem gather_eq_map {β : Type} {n : Nat} (work : Nat → β) {order : List Nat}
    (horder : order.Perm (List.range n)) : gather n work order = (List.range n).map work := by
  have hfull : order.foldl (fun places i => places.set i (some (work i)))
      (List.replicate n none) = (List.range n).map fun i => some (work i) := by
    refine List.ext_getElem? fun k => ?_
    rw [getElem?_foldl_set fun i => some (work i), List.getElem?_replicate]
    by_cases hk : k < n
    · simp [hk, horder.mem_iff]
    · simp [hk]
  rw [gather, hfull, List.filterMap_map]
  exact congrFun List.filterMap_eq_map _

variable {g : Graph α} {s : Schedule} {options : Options α} {e e' : Engine α} {h h' : Host α}
  {samples : List (Sample α)}

theorem evaluateInOrder_eq {order : List Nat} (horder : order.Perm (List.range samples.length)) :
    e.evaluateInOrder h samples order = e.evaluateMany h samples := by
  simp only [evaluateMany, evaluateInOrder, gather_eq_map _ horder,
    gather_eq_map _ (List.Perm.refl _)]

/-- What the workers return, given the packed samples. -/
theorem evaluateMany_of_packStrides {inputs : Buffer α}
    (hpack : e.layout.packStrides 0 samples (.zeros (samples.length * e.layout.inputLen)) =
      .ok inputs) :
    e.evaluateMany h samples =
      .ok ((List.range samples.length).map (e.evaluateStride h inputs)) := by
  simp only [evaluateMany, evaluateInOrder, hpack, gather_eq_map _ (List.Perm.refl _)]

/-- The fault of the first bad sample is reported. -/
theorem evaluateMany_eq_error_iff {fault : Error α} : e.evaluateMany h samples = .error fault ↔
    ∃ before sample after, samples = before ++ sample :: after ∧
      (∀ other ∈ before, e.layout.inputFault? other = none) ∧
      e.layout.inputFault? sample = some fault := by
  rw [← Layout.packStrides_eq_error_iff (i := 0)
    (b := .zeros (samples.length * e.layout.inputLen)), evaluateMany, evaluateInOrder]
  cases e.layout.packStrides 0 samples (.zeros (samples.length * e.layout.inputLen)) <;> simp

/-! ## Answers -/

/-- Two lists that are related to a third, with one possible partner for each of its members. -/
theorem eq_of_forall₂ {ι β : Type} {R R' : ι → β → Prop} (h : ∀ i x y, R i x → R' i y → x = y)
    {is : List ι} {xs ys : List β} (hxs : List.Forall₂ R is xs) (hys : List.Forall₂ R' is ys) :
    xs = ys := by
  induction hxs generalizing ys with
  | nil => exact (List.forall₂_nil_left_iff.1 hys).symm
  | cons hx _ ih =>
    cases hys with
    | cons hy hys => rw [h _ _ _ hx hy, ih hys]

/-- The sample is good, and the outputs are read off values of the nodes that are the meaning of
the graph at the sample. -/
structure Answers (e : Engine α) (h : Host α) (g : Graph α) (hg : g.Acyclic) (sample : Sample α)
    (outputs : Outputs α) : Prop where
  good : e.layout.inputFault? sample = none
  collected : ∃ values : Buffer α, outputs = e.collect values ∧
    ∀ n < g.numNodes, ∀ i < g.width n, values.view (e.layout.dataAt n) i =
      Graph.value (g.setting (e.live h) (vectorOf sample.inputs)) hg n i

/-- Engines for alike graphs with the same live parameters answer a sample alike. -/
theorem eq_of_answers {g' : Graph α} {s' : Schedule} {options' : Options α}
    (he : e.Sound g s options) (he' : e'.Sound g' s' options') (hg : g.Alike g')
    (hlive : ∀ o, (g.tensor? o).isSome = true → ∀ i < g.extent o, e.live h o i = e'.live h' o i)
    {sample : Sample α} {outputs outputs' : Outputs α}
    (ha : e.Answers h g he.acyclic sample outputs)
    (ha' : e'.Answers h' g' he'.acyclic sample outputs') : outputs = outputs' := by
  obtain ⟨values, rfl, hvalues⟩ := ha.collected
  obtain ⟨values', rfl, hvalues'⟩ := ha'.collected
  refine he.collect_eq he' hg fun n hn i hi => ?_
  rw [hvalues n hn i hi, hvalues' n (hg.numNodes_eq ▸ hn) i (hg.width_eq ▸ hi), ← hg.setting_eq,
    ← hg.value_eq _ he.acyclic]
  exact Graph.value_congr (Graph.agree_setting hlive fun _ _ _ _ _ => rfl) _ hn hi

namespace Sound

theorem answers_of_forward (he : e.Sound g s options) {sample : Sample α} {outputs : Outputs α}
    (hf : (e.forward h sample).1 = .ok outputs) :
    e.Answers h g he.acyclic sample outputs := by
  have hpair : e.forward h sample = (.ok outputs, (e.forward h sample).2) := by rw [← hf]
  obtain ⟨input, banks, -, rfl, hvalue⟩ := he.forward_spec hpair
  refine ⟨?_, banks.value, rfl, hvalue⟩
  rw [← e.layout.fst_packInputs 0 sample e.input]
  by_contra hfault
  obtain ⟨fault, hfault⟩ := Option.ne_none_iff_exists'.1 hfault
  obtain ⟨input, hforward⟩ := forward_of_fault (h := h) hfault
  rw [hforward] at hf
  contradiction

/-- A worker answers its sample, from the stride of the sample and from empty banks. -/
theorem answers_evaluateStride (he : e.Sound g s options) {inputs : Buffer α}
    (hpack : e.layout.packStrides 0 samples (.zeros (samples.length * e.layout.inputLen)) =
      .ok inputs) {i : Nat} {sample : Sample α} (hi : samples[i]? = some sample) :
    e.Answers h g he.acyclic sample (e.evaluateStride h inputs i) := by
  have hgood := Layout.inputFault?_eq_none_of_packStrides hpack sample (List.mem_of_getElem? hi)
  refine ⟨hgood, _, rfl, fun n hn j hj => ?_⟩
  rw [he.view_evaluate h _ (Banks.room_inference _) hn hj]
  refine Graph.value_congr (Graph.agree_setting (fun _ _ _ _ => rfl) fun m hm hsource c hc => ?_)
    he.acyclic hn hj
  have hplace := he.fits.input.le m ⟨hm, hsource⟩
  have hstrides := Layout.packStrides_spec he.fits (by simp) hpack
  have hview := hstrides.view (j := i) (by rw [List.getElem?_map, hi, Option.map_some]) m hm
    hsource c hc
  rw [Nat.zero_add] at hview
  exact (Buffer.view_extract (by omega)).trans hview

theorem answers_of_evaluateMany (he : e.Sound g s options) {outputs : List (Outputs α)}
    (hf : e.evaluateMany h samples = .ok outputs) :
    List.Forall₂ (e.Answers h g he.acyclic) samples outputs := by
  cases hpack : e.layout.packStrides 0 samples
      (.zeros (samples.length * e.layout.inputLen)) with
  | error fault =>
    simp only [evaluateMany, evaluateInOrder, hpack] at hf
    contradiction
  | ok inputs =>
    rw [evaluateMany_of_packStrides hpack] at hf
    obtain rfl := Except.ok.inj hf
    refine List.forall₂_iff_get.2 ⟨by simp, fun i hi hi' => ?_⟩
    rw [List.get_eq_getElem, List.get_eq_getElem, List.getElem_map, List.getElem_range]
    exact he.answers_evaluateStride hpack (List.getElem?_eq_getElem hi)

end Sound

end Engine

end GraphTape
