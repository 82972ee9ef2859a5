import GraphTape.Proofs.Engine.Failure
import GraphTape.Proofs.Engine.Workers

/-!
# Many samples, or one after the other

Evaluating many samples together gives what evaluating them one after the other gives, on any
engine of the graph that has the same parameters, whatever it was used for before.

* `Engine.answers_iff`: the one answer to a sample is what an evaluation of it returns.
* `Engine.evaluateMany_maps_forward`: many samples.
-/

namespace GraphTape.Engine

variable {α : Type} [Scalar α] {g : Graph α} {s : Schedule} {options : Options α} {train : Bool}
  {e e' : Engine α} {h h' : Host α}

theorem forward_eq_error_iff {sample : Sample α} {fault : Error α} :
    (e.forward h sample).1 = .error fault ↔ e.layout.inputFault? sample = some fault := by
  rw [← e.layout.fst_packInputs 0 sample e.input]
  cases hfault : (e.layout.packInputs 0 sample e.input).1 with
  | some found =>
    obtain ⟨input, hf⟩ := forward_of_fault (h := h) hfault
    simp [hf]
  | none =>
    obtain ⟨outputs, e₁, hf⟩ := forward_of_none (h := h) hfault
    simp [hf]

theorem exists_forward_iff {sample : Sample α} :
    (∃ outputs, (e.forward h sample).1 = .ok outputs) ↔ e.layout.inputFault? sample = none := by
  rw [← e.layout.fst_packInputs 0 sample e.input]
  cases hfault : (e.layout.packInputs 0 sample e.input).1 with
  | some found =>
    obtain ⟨input, hf⟩ := forward_of_fault (h := h) hfault
    simp [hf]
  | none =>
    obtain ⟨outputs, e₁, hf⟩ := forward_of_none (h := h) hfault
    simp [hf]

/-- All engines that a graph is compiled to in one way have one layout. -/
theorem layout_eq_of_reachable (he : Reachable g options train e)
    (he' : Reachable g options train e') : e'.layout = e.layout := by
  obtain ⟨s, hs⟩ := sound_of_reachable he
  have hl := ofSchedule_of_reachable he hs.schedule
  have hl' := ofSchedule_of_reachable he' hs.schedule
  exact Except.ok.inj (hl'.built.symm.trans hl.built)

/-- Engines with one layout and the same parameters have the same live elements. -/
theorem live_eq_of_params_eq (hl : e.layout.Fits g) (hlayout : e'.layout = e.layout)
    (hparams : e'.params h' = e.params h) {o : Owner} (ho : (g.tensor? o).isSome = true) {i : Nat}
    (hi : i < g.extent o) : e'.live h' o i = e.live h o i := by
  rw [params, params, hlayout, List.map_inj_left] at hparams
  have hmem : (o, e.layout.slotOf o) ∈ e.layout.params := by
    rw [hl.params]
    exact List.mem_map.2 ⟨o, Graph.mem_owners.2 ho, rfl⟩
  have hread := (Prod.mk.inj (hparams _ hmem)).2
  rw [Store.read, Store.read, List.map_inj_left] at hread
  rw [live, live, hlayout]
  exact hread i (List.mem_range.2 (hl.len_eq ho ▸ hi))

/-- What an evaluation returns on any engine with the same parameters is the answer. -/
theorem answers_iff (he : e.Sound g s options) (he' : e'.Sound g s options)
    (hlayout : e'.layout = e.layout) (hparams : e'.params h' = e.params h) {sample : Sample α}
    {outputs : Outputs α} :
    e.Answers h g he.acyclic sample outputs ↔ (e'.forward h' sample).1 = .ok outputs := by
  have hsame : ∀ {out out'}, (e'.forward h' sample).1 = .ok out →
      e.Answers h g he.acyclic sample out' → out = out' := fun hf ha =>
    eq_of_answers he' he (.refl g)
      (fun o ho i hi => live_eq_of_params_eq he.fits hlayout hparams ho hi)
      (he'.answers_of_forward hf) ha
  constructor
  · intro ha
    obtain ⟨outputs', hf⟩ := exists_forward_iff.2 (hlayout ▸ ha.good)
    rw [hf, hsame hf ha]
  · intro hf
    obtain ⟨outputs', hown⟩ := exists_forward_iff.2 (hlayout ▸ exists_forward_iff.1 ⟨outputs, hf⟩)
    have ha := he.answers_of_forward (h := h) hown
    exact hsame hf ha ▸ ha

/-- **Evaluating many samples is evaluating each of them.** It succeeds exactly if an evaluation of
every sample does, and returns what these return, in the order of the samples; otherwise it returns
the error of the first sample whose evaluation fails. The single evaluations can be those of any
engine of the graph with the same parameters, whatever was evaluated or trained for before. The
workers can run in any order, and neither the engine nor the host memory changes. -/
theorem evaluateMany_maps_forward (he : Reachable g options train e) (h : Host α)
    (samples : List (Sample α)) :
    (∀ (e' : Engine α) (h' : Host α), Reachable g options train e' → e'.params h' = e.params h →
      (∀ outputs, e.evaluateMany h samples = .ok outputs ↔
        List.Forall₂ (fun sample out => (e'.forward h' sample).1 = .ok out) samples outputs) ∧
      ∀ fault, e.evaluateMany h samples = .error fault ↔
        ∃ before sample after, samples = before ++ sample :: after ∧
          (∀ other ∈ before, ∃ out, (e'.forward h' other).1 = .ok out) ∧
          (e'.forward h' sample).1 = .error fault) ∧
    (∀ order : List Nat, order.Perm (List.range samples.length) →
      e.evaluateInOrder h samples order = e.evaluateMany h samples) ∧
    (e.act h (.evaluateMany samples)).2 = (e, h) := by
  refine ⟨fun e' h' he' hparams => ?_, fun order => evaluateInOrder_eq, rfl⟩
  obtain ⟨s, hs⟩ := sound_of_reachable he
  obtain ⟨s', hs'⟩ := sound_of_reachable he'
  obtain rfl := Except.ok.inj (hs'.schedule.symm.trans hs.schedule)
  have hlayout := layout_eq_of_reachable he he'
  refine ⟨fun outputs => ?_, fun fault => ?_⟩
  · simp only [← answers_iff hs hs' hlayout hparams]
    refine ⟨hs.answers_of_evaluateMany, fun ha => ?_⟩
    cases hf : e.evaluateMany h samples with
    | ok outputs' =>
      refine congrArg Except.ok (eq_of_forall₂ (fun sample out out' => ?_)
        (hs.answers_of_evaluateMany hf) ha)
      exact eq_of_answers hs hs (.refl g) fun _ _ _ _ => rfl
    | error fault =>
      -- no bad sample has an answer
      obtain ⟨before, bad, after, rfl, -, hbad⟩ := evaluateMany_eq_error_iff.1 hf
      have hgood := ((List.forall₂_and_left _ _).1 (ha.imp fun _ _ ha => ⟨ha.good, ha⟩)).1
      simp [hgood bad (by simp)] at hbad
  · simp only [evaluateMany_eq_error_iff, forward_eq_error_iff, exists_forward_iff, hlayout]

theorem evaluateMany_maps_forward_chain :
    ∃ (e : Engine ℚ) (outputs : List (Outputs ℚ)),
      compile (.chain 0) .chain .chain true = .ok e ∧
      e.evaluateMany .chain [.chain, .chain] = .ok outputs ∧
      List.Forall₂ (fun sample out =>
        ((e.accumulate .chain [.chain]).engine.forward .chain sample).1 = .ok out)
        [.chain, .chain] outputs ∧
      e.evaluateInOrder .chain [.chain, .chain] [1, 0] = .ok outputs := by
  obtain ⟨e, hc, hok⟩ := exists_eq_ok (x := compile (.chain 0) .chain .chain true)
    (f := fun e => (e.evaluateMany .chain [.chain, .chain]).toOption.isSome) (c := true)
    (by decide +kernel)
  have he : Reachable (.chain 0) .chain true e := .compile hc
  obtain ⟨hlayout, hstore, -⟩ := runBatch_false e .chain [.chain]
  have hparams : (e.accumulate .chain [.chain]).engine.params .chain = e.params .chain := by
    rw [params, params, accumulate, hlayout, hstore]
  obtain ⟨hmany, horder, -⟩ := evaluateMany_maps_forward he .chain [.chain, .chain]
  cases hf : e.evaluateMany .chain [.chain, .chain] with
  | error fault => simp [hf, Except.toOption] at hok
  | ok outputs =>
    refine ⟨e, outputs, hc, hf, ?_, (horder [1, 0] (by decide)).trans hf⟩
    exact ((hmany _ .chain (he.act .chain (.accumulate [.chain])) hparams).1 outputs).1 hf

end GraphTape.Engine
