import Mathlib.Algebra.BigOperators.Ring.Finset
import Mathlib.Algebra.Order.Field.Rat
import GraphTape.Proofs.Engine.Requirements
import GraphTape.Proofs.Engine.Sums
import GraphTape.Proofs.Graph.Renumber
import GraphTape.Proofs.Optimizer.Moments

/-!
# Calls under other numbers

A sample names the nodes that its vectors are for, so a call on a graph with new ids is a call with
other samples. Under the new ids the same samples are accepted, in exact arithmetic with the same
loss and the same slopes, and what a graph must meet to be compiled does not depend on its ids.

* `Renumbering.sample`, `Renumbering.action`: samples and calls for the new ids.
* `Graph.Renumbered.accepts_iff`: the samples that are accepted.
* `Graph.Renumbered.lossOf_eq`, `Graph.Renumbered.slopeOf_eq`: what a sample adds to a batch.
* `Graph.Renumbered.exists_compile`: a graph compiles under the new ids if it does under the old.
-/

namespace GraphTape

variable {α : Type} {ρ : Renumbering}

/-! ## Samples and calls under the new ids -/

namespace Renumbering

variable (ρ)

/-- The same vectors for the new ids. -/
def entries (es : List (Nat × Buffer α)) : List (Nat × Buffer α) :=
  es.map fun entry => (ρ.node entry.1, entry.2)

/-- The same sample for the new ids. -/
def sample (x : Sample α) : Sample α := ⟨ρ.entries x.inputs, ρ.entries x.targets⟩

/-- The same call for the new ids. -/
def action : Action α → Action α
  | .forward x => .forward (ρ.sample x)
  | .evaluateMany xs => .evaluateMany (xs.map ρ.sample)
  | .trainStep batch => .trainStep (batch.map ρ.sample)
  | .accumulate batch => .accumulate (batch.map ρ.sample)
  | .apply => .apply
  | .sync => .sync
  | .reload => .reload

theorem vectorOf_entries [Zero α] (es : List (Nat × Buffer α)) (n : Nat) :
    vectorOf (ρ.entries es) (ρ.node n) = vectorOf es n := by
  simp only [vectorOf, vectorFrom, entries, List.foldl_map, ρ.node.apply_eq_iff_eq]

end Renumbering

namespace Graph.Renumbered

variable {g g' : Graph α} (h : Renumbered ρ g g')
include h

theorem covered {p p' : Nat → Bool} (hp : ∀ n, p' (ρ.node n) = p n)
    {es : List (Nat × Buffer α)} : g'.Covered p' (ρ.entries es) ↔ g.Covered p es := by
  have hfits : (∀ entry ∈ ρ.entries es, entry.1 < g'.numNodes ∧ p' entry.1 = true ∧
      entry.2.size = g'.width entry.1) ↔
      ∀ entry ∈ es, entry.1 < g.numNodes ∧ p entry.1 = true ∧ entry.2.size = g.width entry.1 := by
    simp only [Renumbering.entries, List.forall_mem_map, h.lt_numNodes_iff, hp, h.width_eq]
  have hcovers : (∀ n < g'.numNodes, p' n = true → ∃ entry ∈ ρ.entries es, entry.1 = n) ↔
      ∀ n < g.numNodes, p n = true → ∃ entry ∈ es, entry.1 = n := by
    have hentry : ∀ n, (∃ entry ∈ ρ.entries es, entry.1 = ρ.node n) ↔ ∃ entry ∈ es, entry.1 = n :=
      by simp [Renumbering.entries]
    rw [ρ.node.surjective.forall]
    simp only [hentry, h.lt_numNodes_iff, hp]
  exact ⟨fun hc => ⟨hfits.1 hc.fits, hcovers.1 hc.covers⟩,
    fun hc => ⟨hfits.2 hc.fits, hcovers.2 hc.covers⟩⟩

theorem covered_inputs {x : Sample α} :
    g'.Covered g'.isSource (ρ.sample x).inputs ↔ g.Covered g.isSource x.inputs :=
  h.covered h.isSource_eq

theorem accepts_iff {x : Sample α} : g'.Accepts (ρ.sample x) ↔ g.Accepts x :=
  ⟨fun hx => ⟨h.covered_inputs.1 hx.inputs, (h.covered h.isOutput_eq).1 hx.targets⟩,
    fun hx => ⟨h.covered_inputs.2 hx.inputs, (h.covered h.isOutput_eq).2 hx.targets⟩⟩

section Exact

variable [Scalar α] [Scalar.Exact α]

attribute [local instance] Scalar.Exact.commRing

theorem value_sample (param : Owner → Nat → α) (hg : g.Acyclic) (hg' : g'.Acyclic)
    (x : Sample α) (n : Nat) :
    value (g'.setting param (vectorOf (ρ.sample x).inputs)) hg' (ρ.node n) =
      value (g.setting (fun o => param (ρ.owner o)) (vectorOf x.inputs)) hg n := by
  rw [h.value_eq _ hg hg', h.setting_eq]
  simp only [Renumbering.sample, ρ.vectorOf_entries]

theorem lossOf_eq (param : Owner → Nat → α) (loss : Loss) (hg : g.Acyclic) (hg' : g'.Acyclic)
    (x : Sample α) :
    lossOf param loss hg' (ρ.sample x) = lossOf (fun o => param (ρ.owner o)) loss hg x := by
  rw [lossOf, lossOf, Scalar.total_eq, Scalar.total_eq, (h.perm_outputs.map _).sum_eq, List.map_map]
  refine congrArg List.sum (List.map_congr_left fun n _ => ?_)
  rw [Function.comp_apply, h.width_eq, h.value_sample param hg hg', Renumbering.sample,
    ρ.vectorOf_entries]

theorem slopeOf_eq (param : Owner → Nat → α) (loss : Loss) (hg : g.Acyclic) (hg' : g'.Acyclic)
    (x : Sample α) {o : Owner} (ho : (g.tensor? o).isSome = true) (i : Nat) :
    slopeOf param loss hg' (ρ.sample x) (ρ.owner o) i =
      slopeOf (fun o => param (ρ.owner o)) loss hg x o i := by
  simp only [slopeOf, h.contribution_eq _ _ ho, h.value_sample param hg hg']
  have hdelta : ∀ n, delta (g'.setting param (vectorOf (ρ.sample x).inputs)) loss
      (vectorOf (ρ.sample x).targets) hg' (ρ.node n) =
        delta (g.setting (fun o => param (ρ.owner o)) (vectorOf x.inputs)) loss
          (vectorOf x.targets) hg n := by
    intro n
    funext i
    rw [h.delta_eq _ loss _ hg hg', h.setting_eq]
    simp only [Renumbering.sample, ρ.vectorOf_entries]
  simp only [hdelta]

end Exact

/-! ## Compilation -/

/-- A graph meets under the new ids what it meets under the old ones. -/
theorem met [Scalar α] (config : OptimizerConfig α) {r : Requirement} (hr : r.Met g config) :
    r.Met g' config := by
  cases r with
  | hyperparameters => exact hr
  | acyclic => exact h.acyclic hr
  | outputs =>
    intro n hn hnil
    obtain ⟨n, rfl⟩ := ρ.node.surjective n
    rw [h.isOutput_eq]
    exact hr n (h.lt_numNodes_iff.1 hn) ((h.efferents_eq_nil_iff n).1 hnil)
  | weights =>
    intro e t ht
    obtain ⟨e, rfl⟩ := ρ.edge.surjective e
    have ht' : g.tensor? (.weight e) = some t := (h.tensor?_eq (.weight e)).symm.trans ht
    have he := isSome_tensor?_weight.1 (Option.isSome_of_eq_some ht')
    rw [h.src_eq he, h.dst_eq he, h.width_eq, h.width_eq]
    exact hr e t ht'
  | biases =>
    intro n t ht
    obtain ⟨n, rfl⟩ := ρ.node.surjective n
    rw [h.isSource_eq, h.width_eq]
    exact hr n t ((h.tensor?_eq (.bias n)).symm.trans ht)
  | storage =>
    intro o p t u ho hp hcell
    rw [← ρ.owner_symm_owner o, h.tensor?_eq] at ho
    rw [← ρ.owner_symm_owner p, h.tensor?_eq] at hp
    rw [← ρ.owner_symm_owner o, ← ρ.owner_symm_owner p, hr _ _ t u ho hp hcell]
  | derivatives =>
    intro n hn hsource gain
    obtain ⟨n, rfl⟩ := ρ.node.surjective n
    rw [h.isSource_eq] at hsource
    rw [h.activation_eq]
    exact hr n (h.lt_numNodes_iff.1 hn) hsource gain

theorem exists_compile [Scalar α] {x : Host α} {options : Options α} {train : Bool} {e : Engine α}
    (hc : Engine.compile g x options train = .ok e) (x' : Host α) :
    ∃ e', Engine.compile g' x' options train = .ok e' := by
  have hnone := (Requirement.exists_compile_iff g x options train).1 ⟨e, hc⟩
  refine (Requirement.exists_compile_iff g' x' options train).2 ?_
  rw [Requirement.report?, List.findSome?_eq_none_iff] at hnone ⊢
  intro r hr
  by_cases hgraph : r = .hyperparameters
  · subst hgraph
    exact hnone _ hr
  · rw [Requirement.fault?_eq_none_iff _ _ hgraph]
    exact h.met _ ((Requirement.fault?_eq_none_iff _ _ hgraph).1 (hnone r hr))

theorem hostedBy {x : Host α} (hx : g.HostedBy x) : g'.HostedBy x where
  cell_lt o t ho := by
    rw [← ρ.owner_symm_owner o, h.tensor?_eq] at ho
    exact hx.cell_lt _ t ho
  size o t ho := by
    rw [← ρ.owner_symm_owner o, h.tensor?_eq] at ho
    exact hx.size _ t ho

end Graph.Renumbered

end GraphTape
