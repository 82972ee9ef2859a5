import GraphTape.Proofs.Engine.Sound
import GraphTape.Proofs.Graph.Cycles
import GraphTape.Proofs.Graph.Settle

/-!
# What compilation asks for

Compilation is a fixed sequence of checks, spread over the optimizer settings, the scheduler, the
layout, the placement of the parameters and the reverse sweep. Each check is for one requirement,
which is stated here without reference to the check, and finds its first defect.

* `Requirement`, `Requirement.order`: the requirements, in the order in which they are checked.
* `Requirement.Met`, `Requirement.Defect`: what is asked, and what is reported of a defect.
* `Requirement.check`: a check passes what meets its requirement, and reports a first defect.
* `Requirement.compile_engine`: compilation carries out the checks in order and does nothing else
  that could fail.
* `compile_accepts_exactly`: the graphs that compile, and the report of one that does not.
-/

namespace GraphTape

/-! ## Positions -/

theorem getElem?_nodeIds_eq_some {α : Type} {g : Graph α} {k n : Nat} :
    g.nodeIds[k]? = some n ↔ k < g.numNodes ∧ k = n := by
  simp [Graph.nodeIds, List.getElem?_eq_some_iff]

theorem getElem?_edgeIds_eq_some {α : Type} {g : Graph α} {k e : Nat} :
    g.edgeIds[k]? = some e ↔ k < g.numEdges ∧ k = e := by
  simp [Graph.edgeIds, List.getElem?_eq_some_iff]

/-- Parameters that do not share their storage are told apart by their cells. -/
theorem Graph.Apart.index_eq {α : Type} {g : Graph α} (h : g.Apart) {i j : Nat}
    {p q : Owner × Tensor} (hi : g.parameters[i]? = some p) (hj : g.parameters[j]? = some q)
    (hcell : p.2.cell = q.2.cell) : i = j := by
  have howner : p.1 = q.1 :=
    h _ _ _ _ (Graph.mem_parameters.1 (List.mem_of_getElem? hi))
      (Graph.mem_parameters.1 (List.mem_of_getElem? hj)) hcell
  obtain ⟨hlt, -⟩ := List.getElem?_eq_some_iff.1 hi
  have howners : g.owners[i]? = g.owners[j]? := by simp [Graph.owners, hi, hj, howner]
  exact (List.getElem?_inj (by simpa [Graph.owners] using hlt) g.nodup_owners).1 howners

/-! ## Hyperparameters -/

/-- The values that a hyperparameter can take. -/
inductive Interval where
  /-- The finite numbers above zero. -/
  | positive
  /-- The numbers from zero up to one, without one. -/
  | unit

namespace Interval

/-- Whether a number lies in the interval. -/
def Holds {α : Type} [Scalar α] : Interval → α → Prop
  | positive, x => Scalar.isFinite x = true ∧ 0 < x
  | unit, x => 0 ≤ x ∧ x < 1

/-- The reason given for a number outside the interval. -/
def reason : Interval → String
  | positive => "must be finite and positive"
  | unit => "must be in [0, 1)"

end Interval

/-- The hyperparameters of a rule, with the intervals they have to lie in. -/
def OptimizerConfig.settings {α : Type} : OptimizerConfig α → List (String × α × Interval)
  | .sgd lr => [("lr", lr, .positive)]
  | .adam c =>
    [("lr", c.lr, .positive), ("beta1", c.beta1, .unit), ("beta2", c.beta2, .unit),
      ("eps", c.eps, .positive)]

/-! ## Requirements -/

/-- The requirements of compilation. -/
inductive Requirement where
  | hyperparameters
  | acyclic
  | outputs
  | weights
  | biases
  | storage
  | derivatives

namespace Requirement

/-- The requirements of a kind of compilation, in the order in which they are checked. The first
and the last one are about training. -/
def order : Bool → List Requirement
  | true => [hyperparameters, acyclic, outputs, weights, biases, storage, derivatives]
  | false => [acyclic, outputs, weights, biases, storage]

variable {α : Type} [Scalar α]

/-- What a requirement asks of a graph and of the optimizer settings. -/
def Met (g : Graph α) (config : OptimizerConfig α) : Requirement → Prop
  | hyperparameters => ∀ name value interval,
      (name, value, interval) ∈ config.settings → interval.Holds value
  | acyclic => g.Acyclic
  | outputs => ∀ n < g.numNodes, g.efferents n = [] → g.isOutput n = true
  | weights => ∀ e t, g.tensor? (.weight e) = some t →
      t.shape = .matrix (g.width (g.src e)) (g.width (g.dst e))
  | biases => ∀ n t, g.tensor? (.bias n) = some t →
      g.isSource n = false ∧ t.shape = .vector (g.width n)
  | storage => g.Apart
  | derivatives => ∀ n < g.numNodes, g.isSource n = false → ∀ gain, g.activation n ≠ .softmax gain

/-- A defect against a requirement, at a place among the hyperparameters, the nodes, the edges or
the parameters in flat order, and the report of it. No cycle comes before another one. -/
inductive Defect (g : Graph α) (config : OptimizerConfig α) : Requirement → Nat → Error α → Prop
  | setting {k : Nat} {name : String} {value : α} {interval : Interval}
      (hk : config.settings[k]? = some (name, value, interval)) (hout : ¬ interval.Holds value) :
      Defect g config hyperparameters k (.invalidHyperparameter name value interval.reason)
  | cycle {n : Nat} (hn : Relation.TransGen g.Feeds n n) :
      Defect g config acyclic 0 (.cyclicGraph n)
  | deadNode {n : Nat} (hn : n < g.numNodes) (hnil : g.efferents n = [])
      (hinner : g.isOutput n = false) : Defect g config outputs n (.deadNode n (g.name n))
  | weight {e : Nat} {t : Tensor} (ht : g.tensor? (.weight e) = some t)
      (hshape : t.shape ≠ .matrix (g.width (g.src e)) (g.width (g.dst e))) :
      Defect g config weights e
        (.edgeShape e (.matrix (g.width (g.src e)) (g.width (g.dst e))) t.shape)
  | biasOfSource {n : Nat} {t : Tensor} (ht : g.tensor? (.bias n) = some t)
      (hsource : g.isSource n = true) :
      Defect g config biases n (.biasShape n (.vector 0) t.shape)
  | bias {n : Nat} {t : Tensor} (ht : g.tensor? (.bias n) = some t)
      (hsource : g.isSource n = false) (hshape : t.shape ≠ .vector (g.width n)) :
      Defect g config biases n (.biasShape n (.vector (g.width n)) t.shape)
  | shared {i j : Nat} {p q : Owner × Tensor} (hlt : i < j) (hi : g.parameters[i]? = some p)
      (hj : g.parameters[j]? = some q) (hcell : p.2.cell = q.2.cell)
      (hfirst : ∀ k < i, ∀ r, g.parameters[k]? = some r → r.2.cell ≠ q.2.cell) :
      Defect g config storage j (.sharedStorage i j)
  | softmax {n : Nat} {gain : α} (hn : n < g.numNodes) (hsource : g.isSource n = false)
      (hgain : g.activation n = .softmax gain) :
      Defect g config derivatives n (.unsupportedFunction n "SoftMax"
        "activation has no derivative kernel; it cannot be trained through")

/-! ## Checks -/

/-- What the check for a requirement reports. -/
def fault? (g : Graph α) (config : OptimizerConfig α) : Requirement → Option (Error α)
  | hyperparameters => config.fault?
  | acyclic =>
    match g.layer (.start g) with
    | .error fault => some fault
    | .ok _ => none
  | outputs => g.deadNode?.map fun n => .deadNode n (g.name n)
  | weights => g.edgeIds.findSome? g.weightFault?
  | biases => g.nodeIds.findSome? g.biasFault?
  | storage =>
    (Store.sharedPair? (g.parameters.map Prod.snd)).map fun (i, j) => .sharedStorage i j
  | derivatives => g.nodeIds.findSome? g.derivativeFault?

/-! Every check but that for cycles is a search among the places at which there can be a defect. -/

section Searches

variable (g : Graph α) (config : OptimizerConfig α) (k : Nat) (fault : Error α)

/-- The report of a hyperparameter outside its interval. -/
def settingFault? (x : String × α × Interval) : Option (Error α) :=
  match x.2.2 with
  | .positive => positiveFault? x.1 x.2.1
  | .unit => decayFault? x.1 x.2.1

theorem fault?_eq_findSome? : config.fault? = config.settings.findSome? settingFault? := by
  have hcons : ∀ (x : String × α × Interval) xs, (x :: xs).findSome? settingFault? =
      (settingFault? x).or (xs.findSome? settingFault?) := by
    intro x xs
    rw [List.findSome?_cons]
    cases settingFault? x <;> rfl
  cases config <;>
    simp only [OptimizerConfig.settings, hcons, List.findSome?_nil, Option.or_none] <;> rfl

theorem settingFault?_eq_some
    (hfinite : ∀ x : α, Scalar.isFinite x = true → (¬ x ≤ 0 ↔ 0 < x)) {name : String} {value : α}
    {interval : Interval} : settingFault? (name, value, interval) = some fault ↔
      ¬ interval.Holds value ∧ fault = .invalidHyperparameter name value interval.reason := by
  cases interval with
  | positive =>
    have hholds : Interval.positive.Holds value ↔
        (Scalar.isFinite value && !decide (value ≤ 0)) = true := by
      rw [Interval.Holds, Bool.and_eq_true, Bool.not_eq_true', decide_eq_false_iff_not]
      exact and_congr_right fun hvalue => (hfinite value hvalue).symm
    show positiveFault? name value = _ ↔ _
    rw [hholds, positiveFault?, Option.ite_none_left_eq_some, Option.some.injEq]
    exact and_congr_right fun _ => eq_comm
  | unit =>
    show decayFault? name value = _ ↔ _
    rw [Interval.Holds, decayFault?, Option.ite_none_left_eq_some, Option.some.injEq]
    exact and_congr_right fun _ => eq_comm

theorem defect_hyperparameters
    (hfinite : ∀ x : α, Scalar.isFinite x = true → (¬ x ≤ 0 ↔ 0 < x)) :
    Defect g config hyperparameters k fault ↔
      ∃ x, config.settings[k]? = some x ∧ settingFault? x = some fault := by
  constructor
  · intro h
    cases h with
    | setting hk hout => exact ⟨_, hk, (settingFault?_eq_some _ hfinite).2 ⟨hout, rfl⟩⟩
  · rintro ⟨⟨name, value, interval⟩, hk, hfault⟩
    obtain ⟨hout, rfl⟩ := (settingFault?_eq_some _ hfinite).1 hfault
    exact .setting hk hout

theorem defect_outputs : Defect g config outputs k fault ↔
    ∃ n, g.nodeIds[k]? = some n ∧ (if !g.isOutput n && (g.efferents n).isEmpty
      then some (Error.deadNode n (g.name n)) else none) = some fault := by
  simp only [getElem?_nodeIds_eq_some]
  constructor
  · intro h
    cases h with
    | deadNode hn hnil hinner => exact ⟨k, ⟨hn, rfl⟩, by simp [hnil, hinner]⟩
  · rintro ⟨n, ⟨hn, rfl⟩, hfault⟩
    rw [Option.ite_none_right_eq_some, Bool.and_eq_true, Bool.not_eq_true',
      List.isEmpty_iff] at hfault
    obtain ⟨⟨hinner, hnil⟩, hfault⟩ := hfault
    obtain rfl := Option.some.inj hfault
    exact .deadNode hn hnil hinner

theorem defect_weights : Defect g config weights k fault ↔
    ∃ e, g.edgeIds[k]? = some e ∧ g.weightFault? e = some fault := by
  simp only [getElem?_edgeIds_eq_some]
  constructor
  · intro h
    cases h with
    | weight ht hshape =>
      rw [Graph.tensor?, Option.map_eq_some_iff] at ht
      obtain ⟨edge, hedge, rfl⟩ := ht
      refine ⟨k, ⟨(Array.getElem?_eq_some_iff.1 hedge).1, rfl⟩, ?_⟩
      rw [Graph.weightFault?, hedge]
      exact if_neg hshape
  · rintro ⟨e, ⟨he, rfl⟩, hfault⟩
    rw [Graph.weightFault?] at hfault
    split at hfault
    · contradiction
    · rename_i edge hedge
      split at hfault
      · contradiction
      · rename_i hshape
        obtain rfl := Option.some.inj hfault
        exact .weight (by rw [Graph.tensor?, hedge]; rfl) hshape

theorem defect_biases : Defect g config biases k fault ↔
    ∃ n, g.nodeIds[k]? = some n ∧ g.biasFault? n = some fault := by
  simp only [getElem?_nodeIds_eq_some]
  constructor
  · intro h
    cases h with
    | biasOfSource ht hsource =>
      refine ⟨k, ⟨Graph.lt_of_isSome_bias? (Option.isSome_of_eq_some ht), rfl⟩, ?_⟩
      rw [Graph.biasFault?, show g.bias? k = _ from ht]
      exact if_pos hsource
    | bias ht hsource hshape =>
      refine ⟨k, ⟨Graph.lt_of_isSome_bias? (Option.isSome_of_eq_some ht), rfl⟩, ?_⟩
      rw [Graph.biasFault?, show g.bias? k = _ from ht]
      simp [hsource, hshape]
  · rintro ⟨n, ⟨hn, rfl⟩, hfault⟩
    rw [Graph.biasFault?] at hfault
    split at hfault
    · contradiction
    · rename_i t ht
      split at hfault
      · rename_i hsource
        obtain rfl := Option.some.inj hfault
        exact .biasOfSource ht hsource
      · rename_i hsource
        split at hfault
        · contradiction
        · rename_i hshape
          obtain rfl := Option.some.inj hfault
          exact .bias ht (Bool.eq_false_iff.2 hsource) hshape

theorem defect_storage : Defect g config storage k fault ↔
    ∃ x, (g.parameters.map Prod.snd).zipIdx[k]? = some x ∧
      ((Store.twin? (g.parameters.map Prod.snd) x.2 x.1).map fun first =>
        Error.sharedStorage first x.2) = some fault := by
  have hget : ∀ {i : Nat} {t : Tensor}, (g.parameters.map Prod.snd)[i]? = some t ↔
      ∃ p, g.parameters[i]? = some p ∧ p.2 = t := by simp
  constructor
  · intro h
    cases h with
    | @shared i j p q hlt hi hj hcell hfirst =>
      refine ⟨(q.2, k), by simp [hj], Option.map_eq_some_iff.2 ⟨i, ?_, rfl⟩⟩
      refine Store.twin?_eq_some.2 ⟨hlt, ⟨p.2, hget.2 ⟨p, hi, rfl⟩, hcell⟩, ?_⟩
      intro m hm u hu
      obtain ⟨r, hr, rfl⟩ := hget.1 hu
      exact hfirst m hm r hr
  · rintro ⟨⟨t, j⟩, hx, hfault⟩
    rw [List.getElem?_zipIdx, Option.map_eq_some_iff] at hx
    obtain ⟨t', ht, hpair⟩ := hx
    obtain ⟨rfl, rfl⟩ := Prod.mk.inj hpair
    rw [Nat.zero_add] at hfault
    obtain ⟨q, hq, rfl⟩ := hget.1 ht
    obtain ⟨i, hi, rfl⟩ := Option.map_eq_some_iff.1 hfault
    obtain ⟨hlt, ⟨u, hu, hcell⟩, hfirst⟩ := Store.twin?_eq_some.1 hi
    obtain ⟨p, hp, rfl⟩ := hget.1 hu
    exact .shared hlt hp hq hcell fun m hm r hr => hfirst m hm _ (hget.2 ⟨r, hr, rfl⟩)

theorem defect_derivatives : Defect g config derivatives k fault ↔
    ∃ n, g.nodeIds[k]? = some n ∧ g.derivativeFault? n = some fault := by
  simp only [getElem?_nodeIds_eq_some]
  constructor
  · intro h
    cases h with
    | softmax hn hsource hgain =>
      refine ⟨k, ⟨hn, rfl⟩, ?_⟩
      simp [Graph.derivativeFault?, hsource, hgain, Activation.derivative?, Activation.name]
  · rintro ⟨n, ⟨hn, rfl⟩, hfault⟩
    rw [Graph.derivativeFault?, Option.ite_none_left_eq_some, Bool.or_eq_true, not_or] at hfault
    obtain ⟨⟨hsource, hderivative⟩, hfault⟩ := hfault
    obtain rfl := Option.some.inj hfault
    cases hgain : g.activation k with
    | softmax gain => exact .softmax hn (Bool.eq_false_iff.2 hsource) hgain
    | _ => simp [hgain, Activation.derivative?] at hderivative

end Searches

/-- A requirement is met exactly if there is no defect against it. -/
theorem met_iff (g : Graph α) (config : OptimizerConfig α) (r : Requirement) :
    r.Met g config ↔ ∀ k fault, ¬ r.Defect g config k fault := by
  constructor
  · rintro hmet k fault (⟨hk, hout⟩ | ⟨hn⟩ | ⟨hn, hnil, hinner⟩ | ⟨ht, hshape⟩ | ⟨ht, hsource⟩ |
      ⟨ht, hsource, hshape⟩ | ⟨hlt, hi, hj, hcell, -⟩ | ⟨hn, hsource, hgain⟩)
    · exact hout (hmet _ _ _ (List.mem_of_getElem? hk))
    · exact hmet _ hn
    · exact absurd ((hmet _ hn hnil).symm.trans hinner) (by decide)
    · exact hshape (hmet _ _ ht)
    · exact absurd (hsource.symm.trans (hmet _ _ ht).1) (by decide)
    · exact hshape (hmet _ _ ht).2
    · exact hlt.ne (Graph.Apart.index_eq hmet hi hj hcell)
    · exact hmet _ hn hsource _ hgain
  · intro hnone
    cases r with
    | hyperparameters =>
      intro name value interval hmem
      obtain ⟨k, hk⟩ := List.getElem?_of_mem hmem
      by_contra hout
      exact hnone k _ (.setting hk hout)
    | acyclic => exact fun n hn => hnone 0 _ (.cycle hn)
    | outputs =>
      intro n hn hnil
      by_contra hinner
      exact hnone n _ (.deadNode hn hnil (Bool.eq_false_iff.2 hinner))
    | weights =>
      intro e t ht
      by_contra hshape
      exact hnone e _ (.weight ht hshape)
    | biases =>
      intro n t ht
      have hsource : g.isSource n = false := by
        by_contra hsource
        exact hnone n _ (.biasOfSource ht (Bool.not_eq_false _ ▸ hsource))
      refine ⟨hsource, ?_⟩
      by_contra hshape
      exact hnone n _ (.bias ht hsource hshape)
    | storage =>
      refine Store.apart_of_sharedPair? (Option.eq_none_iff_forall_ne_some.2 ?_)
      intro pair hpair
      obtain ⟨k, x, hx, hpair, -⟩ := exists_first_of_findSome? hpair
      obtain ⟨first, hfirst, -⟩ := Option.map_eq_some_iff.1 hpair
      exact hnone k _ ((defect_storage ..).2 ⟨x, hx, Option.map_eq_some_iff.2 ⟨first, hfirst, rfl⟩⟩)
    | derivatives => exact fun n hn hsource gain hgain => hnone n _ (.softmax hn hsource hgain)

/-- What the checks of a kind of compilation report, one after the other. -/
def report? (g : Graph α) (config : OptimizerConfig α) (train : Bool) : Option (Error α) :=
  (order train).findSome? (fault? g config)

/-- A first defect against a requirement. -/
def First (g : Graph α) (config : OptimizerConfig α) (r : Requirement) (fault : Error α) : Prop :=
  ∃ k, r.Defect g config k fault ∧ ∀ j < k, ∀ earlier, ¬ r.Defect g config j earlier

/-- A search among the places at which there can be a defect finds the first one. -/
theorem first_of_findSome? {ι : Type} {g : Graph α} {config : OptimizerConfig α}
    {r : Requirement} {xs : List ι} {f : ι → Option (Error α)}
    (hdefect : ∀ k fault, r.Defect g config k fault ↔ ∃ x, xs[k]? = some x ∧ f x = some fault) :
    (xs.findSome? f = none → r.Met g config) ∧
      ∀ fault, xs.findSome? f = some fault → r.First g config fault := by
  refine ⟨fun hnone => (met_iff ..).2 fun k fault hk => ?_, fun fault hsome => ?_⟩
  · obtain ⟨x, hx, hfault⟩ := (hdefect k fault).1 hk
    rw [List.findSome?_eq_none_iff] at hnone
    exact absurd (hnone x (List.mem_of_getElem? hx)) (by simp [hfault])
  · obtain ⟨k, x, hx, hfault, hfirst⟩ := exists_first_of_findSome? hsome
    refine ⟨k, (hdefect k fault).2 ⟨x, hx, hfault⟩, fun j hj earlier hdef => ?_⟩
    obtain ⟨z, hz, hearlier⟩ := (hdefect j earlier).1 hdef
    exact absurd (hfirst j hj z hz) (by simp [hearlier])

/-- A check of the graph passes what meets its requirement, and reports a first defect
otherwise. -/
theorem check_graph (g : Graph α) (config : OptimizerConfig α) {r : Requirement}
    (hr : r ≠ hyperparameters) : (r.fault? g config = none → r.Met g config) ∧
      ∀ fault, r.fault? g config = some fault → r.First g config fault := by
  cases r with
  | hyperparameters => contradiction
  | acyclic =>
    rw [fault?]
    cases hl : g.layer (.start g) with
    | ok l => exact ⟨fun _ => Graph.acyclic_of_layer hl, by simp⟩
    | error cycle =>
      refine ⟨by simp, fun fault hfault => ?_⟩
      obtain rfl := Option.some.inj hfault
      obtain ⟨n, rfl, hn⟩ := Graph.transGen_of_layer hl
      exact ⟨0, .cycle hn, by simp⟩
  | outputs =>
    rw [fault?, Graph.deadNode?, List.find?_eq_findSome?_guard, List.map_findSome?]
    refine first_of_findSome? fun k fault => (defect_outputs ..).trans ?_
    refine exists_congr fun n => and_congr_right fun _ => ?_
    rw [Function.comp_apply, Option.guard]
    split <;> simp
  | weights => exact first_of_findSome? fun k fault => defect_weights g config k fault
  | biases => exact first_of_findSome? fun k fault => defect_biases g config k fault
  | storage =>
    rw [fault?, Store.sharedPair?, List.map_findSome?]
    refine first_of_findSome? fun k fault => (defect_storage ..).trans ?_
    refine exists_congr fun x => and_congr_right fun _ => ?_
    rw [Function.comp_apply, Option.map_map]
    rfl
  | derivatives => exact first_of_findSome? fun k fault => defect_derivatives g config k fault

/-- A check passes what meets its requirement, and reports a first defect otherwise. -/
theorem check (hfinite : ∀ x : α, Scalar.isFinite x = true → (¬ x ≤ 0 ↔ 0 < x)) (g : Graph α)
    (config : OptimizerConfig α) (r : Requirement) :
    (r.fault? g config = none → r.Met g config) ∧
      ∀ fault, r.fault? g config = some fault → r.First g config fault := by
  cases r with
  | hyperparameters =>
    rw [fault?, fault?_eq_findSome?]
    exact first_of_findSome? fun k fault => defect_hyperparameters g config k fault hfinite
  | _ => exact check_graph g config (by simp)

theorem First.not_met {g : Graph α} {config : OptimizerConfig α} {r : Requirement}
    {fault : Error α} (h : r.First g config fault) : ¬ r.Met g config := by
  obtain ⟨k, hk, -⟩ := h
  exact fun hmet => (met_iff ..).1 hmet k fault hk

/-- What meets a requirement of the graph is what its check passes. -/
theorem fault?_eq_none_iff (g : Graph α) (config : OptimizerConfig α) {r : Requirement}
    (hr : r ≠ hyperparameters) : r.fault? g config = none ↔ r.Met g config := by
  obtain ⟨hpass, hreport⟩ := check_graph g config hr
  refine ⟨hpass, fun hmet => Option.eq_none_iff_forall_ne_some.2 fun fault hfault => ?_⟩
  exact (hreport fault hfault).not_met hmet

/-- The checks in order report a first defect against the first requirement that is not met. -/
theorem report?_spec (hfinite : ∀ x : α, Scalar.isFinite x = true → (¬ x ≤ 0 ↔ 0 < x))
    (g : Graph α) (config : OptimizerConfig α) (train : Bool) :
    (report? g config train = none → ∀ r ∈ order train, r.Met g config) ∧
      ∀ fault, report? g config train = some fault →
        ∃ front r back, order train = front ++ r :: back ∧ (∀ q ∈ front, q.Met g config) ∧
          ¬ r.Met g config ∧ r.First g config fault := by
  have hcheck := check hfinite g config
  refine ⟨fun hnone r hr => (hcheck r).1 (List.findSome?_eq_none_iff.1 hnone r hr), ?_⟩
  intro fault hfault
  obtain ⟨front, r, back, hsplit, hr, hfront⟩ := List.findSome?_eq_some_iff.1 hfault
  have hfirst := (hcheck r).2 fault hr
  exact ⟨front, r, back, hsplit, fun q hq => (hcheck q).1 (hfront q hq), hfirst.not_met, hfirst⟩

/-- A layout is compiled by the checks that are not about training. Once these have passed,
nothing is left that could fail. -/
theorem compile_layout (g : Graph α) (config : OptimizerConfig α) (h : Host α)
    (ownership : Ownership) (aux : Nat) :
    match report? g config false with
    | some fault => Layout.compile g h ownership aux = .error fault
    | none => ∃ s l st, g.Acyclic ∧ Layout.compile g h ownership aux = .ok (s, l, st) := by
  simp only [report?, order, List.findSome?_cons, List.findSome?_nil, fault?]
  cases hl : g.layer (.start g) with
  | error cycle => simp [Layout.compile, Graph.schedule, hl]
  | ok l =>
  cases hdead : g.deadNode? with
  | some n => simp [Layout.compile, Graph.schedule, hl, hdead]
  | none =>
  have hs : g.schedule = .ok l.toSchedule := by simp [Graph.schedule, hl, hdead]
  cases hweight : g.edgeIds.findSome? g.weightFault? with
  | some fault => simp [Layout.compile, hs, Graph.shapeFault?, hweight]
  | none =>
  cases hbias : g.nodeIds.findSome? g.biasFault? with
  | some fault => simp [Layout.compile, hs, Graph.shapeFault?, hweight, hbias]
  | none =>
  have hshape : g.shapeFault? = none := by simp [Graph.shapeFault?, hweight, hbias]
  cases hpair : Store.sharedPair? (g.parameters.map Prod.snd) with
  | some pair => simp [Layout.compile, hs, hshape, Store.place, hpair]
  | none =>
    obtain ⟨st, hst⟩ := Store.exists_place hpair ownership h
    obtain ⟨layout, hlayout⟩ := Layout.exists_ofSchedule hs ownership aux
    simp only [Option.map_none]
    refine ⟨l.toSchedule, layout, st, Graph.acyclic_of_layer hl, ?_⟩
    simp only [Layout.compile, hs, hshape, hst, hlayout]

/-- The reverse sweep of an acyclic graph is compiled by the check of the derivatives. -/
theorem compile_reverse {g : Graph α} (hg : g.Acyclic) (config : OptimizerConfig α) (l : Layout)
    (loss : Loss) :
    match derivatives.fault? g config with
    | some fault => Tape.reverse g l loss = .error fault
    | none => ∃ tape, Tape.reverse g l loss = .ok tape := by
  simp only [fault?, Tape.reverse]
  cases g.nodeIds.findSome? g.derivativeFault? with
  | some fault => rfl
  | none => exact ⟨_, if_pos hg.length_settle⟩

/-- Compilation carries out the checks in order, and does nothing else that could fail. -/
theorem compile_engine (g : Graph α) (h : Host α) (options : Options α) (train : Bool) :
    match report? g options.optimizer train with
    | some fault => Engine.compile g h options train = .error fault
    | none => ∃ e, Engine.compile g h options train = .ok e := by
  cases train with
  | false =>
    have hlayout := compile_layout g options.optimizer h options.ownership 0
    rw [Engine.compile, if_neg Bool.false_ne_true, Engine.compileInference]
    cases hfault : report? g options.optimizer false with
    | some fault =>
      rw [hfault] at hlayout
      simp only [hlayout]
    | none =>
      rw [hfault] at hlayout
      obtain ⟨s, l, st, -, hcompile⟩ := hlayout
      simp only [hcompile]
      exact ⟨_, rfl⟩
  | true =>
    have hreport : report? g options.optimizer true = (hyperparameters ::
        (order false ++ [derivatives])).findSome? (fault? g options.optimizer) := rfl
    have hlayout := compile_layout g options.optimizer h options.ownership
      options.optimizer.auxPerParam
    rw [hreport, List.findSome?_cons, List.findSome?_append, ← report?, Engine.compile, if_pos rfl,
      Engine.compileTrainable]
    simp only [fault?]
    cases hsettings : options.optimizer.fault? with
    | some fault => rfl
    | none =>
    cases hfault : report? g options.optimizer false with
    | some fault =>
      rw [hfault] at hlayout
      simp only [hlayout, Option.some_or]
    | none =>
      rw [hfault] at hlayout
      obtain ⟨s, l, st, hg, hcompile⟩ := hlayout
      have hreverse := compile_reverse hg options.optimizer l options.loss
      simp only [hcompile, Engine.compileTraining, Optimizer.build, hsettings, Option.none_or,
        List.findSome?_cons, List.findSome?_nil]
      cases hderivative : derivatives.fault? g options.optimizer with
      | some fault =>
        rw [hderivative] at hreverse
        simp only [hreverse]
      | none =>
        rw [hderivative] at hreverse
        obtain ⟨tape, htape⟩ := hreverse
        simp only [htape]
        exact ⟨_, rfl⟩

theorem exists_compile_iff (g : Graph α) (h : Host α) (options : Options α) (train : Bool) :
    (∃ e, Engine.compile g h options train = .ok e) ↔
      report? g options.optimizer train = none := by
  have hcompile := compile_engine g h options train
  cases hreport : report? g options.optimizer train with
  | none =>
    rw [hreport] at hcompile
    exact iff_of_true hcompile rfl
  | some fault =>
    rw [hreport] at hcompile
    simp [hcompile]

end Requirement

/-- **Compilation accepts exactly the graphs that meet what it asks for.** A graph compiles exactly
if it meets all requirements: it is acyclic, every node that nothing leaves is an output, every
weight takes the width of its source to that of its destination, every bias belongs to an inner
node and is as wide as it, and no two parameters share their storage; for training, in addition,
the hyperparameters lie in their intervals and no inner node has a softmax. Otherwise the report is
that of a first defect against the first requirement that is not met. Once a graph has a schedule,
its layout cannot fail, and its reverse sweep reports no cycle. All that is asked of the numbers is
that a finite one is either at most zero or above. -/
theorem compile_accepts_exactly {α : Type} [Scalar α]
    (hfinite : ∀ x : α, Scalar.isFinite x = true → (¬ x ≤ 0 ↔ 0 < x)) (g : Graph α) (h : Host α)
    (options : Options α) (train : Bool) :
    ((∃ e, Engine.compile g h options train = .ok e) ↔
      ∀ r ∈ Requirement.order train, r.Met g options.optimizer) ∧
    (∀ fault, Engine.compile g h options train = .error fault →
      ∃ front r back, Requirement.order train = front ++ r :: back ∧
        (∀ q ∈ front, q.Met g options.optimizer) ∧ ¬ r.Met g options.optimizer ∧
        r.First g options.optimizer fault) ∧
    ∀ s, g.schedule = .ok s →
      (∀ ownership aux, ∃ l, Layout.ofSchedule g s ownership aux = .ok l) ∧
      ∀ l loss n, Tape.reverse g l loss ≠ .error (.cyclicGraph n) := by
  obtain ⟨hnone, hsome⟩ := Requirement.report?_spec hfinite g options.optimizer train
  refine ⟨?_, fun fault herror => ?_, fun s hs => ⟨?_, ?_⟩⟩
  · rw [Requirement.exists_compile_iff]
    refine ⟨hnone, fun hmet => Option.eq_none_iff_forall_ne_some.2 fun fault hreport => ?_⟩
    obtain ⟨front, r, back, hsplit, -, hr, -⟩ := hsome fault hreport
    exact hr (hmet r (by rw [hsplit]; simp))
  · have hcompile := Requirement.compile_engine g h options train
    cases hreport : Requirement.report? g options.optimizer train with
    | none =>
      rw [hreport] at hcompile
      obtain ⟨e, he⟩ := hcompile
      exact absurd (he.symm.trans herror) (by simp)
    | some first =>
      rw [hreport] at hcompile
      obtain rfl := Except.error.inj (hcompile.symm.trans herror)
      exact hsome _ hreport
  · exact Layout.exists_ofSchedule hs
  · intro l loss n herror
    have hreverse :=
      Requirement.compile_reverse (Graph.acyclic_of_schedule hs) options.optimizer l loss
    cases hfault : Requirement.derivatives.fault? g options.optimizer with
    | none =>
      rw [hfault] at hreverse
      obtain ⟨tape, htape⟩ := hreverse
      exact absurd (htape.symm.trans herror) (by simp)
    | some fault =>
      rw [hfault] at hreverse
      obtain rfl := Except.error.inj (hreverse.symm.trans herror)
      obtain ⟨k, hdefect, -⟩ := (Requirement.check hfinite g options.optimizer _).2 _ hfault
      cases hdefect

/-- Two nodes in a circle, with a way in and a dead end behind them. The weights have no shape that
would fit. -/
def Graph.eddy : Graph ℚ where
  nodes :=
    #[{ name := "end", width := 1, activation := .identity },
      { name := "left", width := 1, activation := .identity },
      { name := "right", width := 1, activation := .identity },
      { name := "in", width := 1, activation := .identity }]
  edges := #[⟨3, 1, ⟨⟨[]⟩, 0⟩⟩, ⟨1, 2, ⟨⟨[]⟩, 1⟩⟩, ⟨2, 1, ⟨⟨[]⟩, 2⟩⟩, ⟨2, 0, ⟨⟨[]⟩, 3⟩⟩]
  nodes_pos := by simp
  width_pos := by simp
  ends_lt := by simp
  ends_inj := Graph.ends_inj_of_nodup (by decide)

theorem compile_accepts_exactly_chain :
    (∀ x : ℚ, Scalar.isFinite x = true → (¬ x ≤ 0 ↔ 0 < x)) ∧
    (∀ r ∈ Requirement.order true, r.Met (.chain 0) Options.chain.optimizer) ∧
    Engine.compile .eddy .chain .chain false = .error (.cyclicGraph 2) ∧
    Relation.TransGen Graph.eddy.Feeds 2 2 := by
  have hfinite : ∀ x : ℚ, Scalar.isFinite x = true → (¬ x ≤ 0 ↔ 0 < x) := fun _ _ => not_le
  have hcycle : Engine.compile .eddy .chain .chain false = .error (.cyclicGraph 2) := by cbv
  obtain ⟨e, he, -⟩ := exists_eq_ok (x := Engine.compile (.chain 0) .chain .chain true)
    (f := fun _ => ()) (c := ()) (by decide +kernel)
  obtain ⟨front, r, back, -, -, -, k, hdefect, -⟩ :=
    (compile_accepts_exactly hfinite .eddy .chain .chain false).2.1 _ hcycle
  refine ⟨hfinite, (compile_accepts_exactly hfinite (.chain 0) .chain .chain true).1.1 ⟨e, he⟩,
    hcycle, ?_⟩
  cases hdefect with
  | cycle hn => exact hn

end GraphTape
