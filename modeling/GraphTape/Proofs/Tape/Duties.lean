import GraphTape.Proofs.Memory.Offsets
import GraphTape.Proofs.Tape.Reverse
import Mathlib.Algebra.BigOperators.Group.Finset.Piecewise

/-!
# What reverse sweeps consist of

A sweep owes every graph the same instructions: the product of the error of a destination with the
weight, over each edge whose source is no source of the graph; the loss of each output; the
derivative of each activation; and the gradient of each parameter. They are the `Graph.Duty` of the
graph. The tape serves each of them once, node by node in the order in which the nodes settle.

* `Graph.duties`: the duties that are served when a node settles.
* `Graph.sweepDuties`: all duties in the order in which they are served.
* `Tape.Serves`: the instruction for a duty, with its operands.
* `reverse_serves_each_duty_once`: the whole tape of a graph that has a schedule.
-/

namespace GraphTape

namespace Graph

variable {α : Type}

/-- What an instruction of a reverse sweep is for. -/
inductive Duty where
  /-- The error of the destination of an edge comes back to the source. -/
  | product (edge : Nat)
  /-- The loss of an output counts, and its slope is an error. -/
  | loss (node : Nat)
  /-- The error of a node goes through its activation. -/
  | derivative (node : Nat)
  /-- The gradient of a parameter grows. -/
  | gradient (owner : Owner)
  deriving DecidableEq

/-- What a sweep has to do for a graph. Nothing is followed through a source. -/
def Owes (g : Graph α) : Duty → Prop
  | .product e => e < g.numEdges ∧ g.isSource (g.src e) = false
  | .loss n => n < g.numNodes ∧ g.isOutput n = true
  | .derivative n => n < g.numNodes ∧ g.isSource n = false
  | .gradient (.weight e) => e < g.numEdges
  | .gradient (.bias n) => (g.bias? n).isSome = true ∧ g.isSource n = false

/-- The node with which a duty is served. -/
def Duty.node (g : Graph α) : Duty → Nat
  | .product e => g.src e
  | .loss n => n
  | .derivative n => n
  | .gradient o => g.sink o

variable (g : Graph α)

/-- The duty towards the loss of a node, if it is an output. -/
def lossDuties (n : Nat) : List Duty := if g.isOutput n then [.loss n] else []

/-- What is served when a node settles: the products over the edges that leave it, by ascending id,
its loss, its derivative, and the gradients of the parameters that act on it. -/
def duties (n : Nat) : List Duty :=
  if g.isSource n then g.lossDuties n
  else (g.efferents n).map .product ++ g.lossDuties n ++
    .derivative n :: (g.entering n).map .gradient

/-- All that a sweep serves, in this order. -/
def sweepDuties : List Duty := g.settle.1.flatMap g.duties

/-- The number of duties towards a node that is no source, its loss apart. -/
def innerDuties (n : Nat) : Nat :=
  (g.efferents n).length + (g.afferents n).length + 1 + if (g.bias? n).isSome then 1 else 0

variable {g}

/-! ## The duties towards one node -/

theorem mem_lossDuties {d : Duty} {n : Nat} :
    d ∈ g.lossDuties n ↔ g.isOutput n = true ∧ d = .loss n := by
  unfold lossDuties
  split <;> simp_all

/-- A gradient is owed if the parameter is one of a node that is no source. -/
theorem owes_gradient_iff {o : Owner} :
    g.Owes (.gradient o) ↔ (g.tensor? o).isSome = true ∧ g.isSource (g.sink o) = false := by
  cases o with
  | weight e =>
    rw [isSome_tensor?_weight]
    exact ⟨fun he => ⟨he, isSource_of_feeds ⟨e, he, rfl, rfl⟩⟩, And.left⟩
  | bias n => exact Iff.rfl

/-- When a node settles, all that is owed to it is served. -/
theorem mem_duties {d : Duty} {n : Nat} (hn : n < g.numNodes) :
    d ∈ g.duties n ↔ g.Owes d ∧ d.node g = n := by
  unfold duties
  cases hsource : g.isSource n with
  | true =>
    -- of all duties with this node, a source is owed its loss only
    rw [if_pos rfl, mem_lossDuties]
    cases d with
    | loss m => simp only [Owes, Duty.node]; grind
    | product e => simp only [Owes, Duty.node]; grind
    | derivative m => simp only [Owes, Duty.node]; grind
    | gradient o => simp only [owes_gradient_iff, Duty.node]; grind
  | false =>
    rw [if_neg Bool.false_ne_true, List.mem_append, List.mem_append, List.mem_cons, mem_lossDuties,
      List.mem_map, List.mem_map]
    cases d with
    | product e => simp only [Owes, Duty.node, mem_efferents]; grind
    | loss m => simp only [Owes, Duty.node]; grind
    | derivative m => simp only [Owes, Duty.node]; grind
    | gradient o => simp only [owes_gradient_iff, Duty.node, mem_entering]; grind

theorem nodup_duties (n : Nat) : (g.duties n).Nodup := by
  have hloss : (g.lossDuties n).Nodup := by unfold lossDuties; split <;> simp
  have hproducts : ((g.efferents n).map Duty.product).Nodup :=
    (nodup_efferents n).map fun _ _ => Duty.product.inj
  have hgradients : ((g.entering n).map Duty.gradient).Nodup :=
    (nodup_entering n).map fun _ _ => Duty.gradient.inj
  unfold duties
  split
  · exact hloss
  · -- duties of different kinds are different, so the parts do not meet
    simp only [List.nodup_append, List.nodup_cons, List.mem_map, List.mem_append, List.mem_cons,
      mem_lossDuties]
    grind

/-- The products come before the derivative. -/
theorem sublist_duties {e : Nat} (he : e < g.numEdges) (hinner : g.isSource (g.src e) = false) :
    [.product e, .derivative (g.src e)].Sublist (g.duties (g.src e)) := by
  rw [duties, hinner, if_neg Bool.false_ne_true]
  have hproduct : [Duty.product e].Sublist
      ((g.efferents (g.src e)).map .product ++ g.lossDuties (g.src e)) :=
    List.singleton_sublist.2 (List.mem_append_left _
      (List.mem_map_of_mem (g.mem_efferents.2 ⟨he, rfl⟩)))
  exact hproduct.append ((List.nil_sublist _).cons_cons _)

theorem length_duties (n : Nat) :
    (g.duties n).length =
      (if g.isSource n = false then g.innerDuties n else 0) + if g.isOutput n then 1 else 0 := by
  have hloss : (g.lossDuties n).length = if g.isOutput n then 1 else 0 := by
    unfold lossDuties
    split <;> rfl
  have hentering : (g.entering n).length =
      (g.afferents n).length + if (g.bias? n).isSome then 1 else 0 := by
    rw [entering, List.length_append, List.length_map, List.length_map]
    cases g.bias? n <;> rfl
  unfold duties
  cases g.isSource n with
  | true => simp [hloss]
  | false =>
    simp only [Bool.false_eq_true, if_false, if_true, List.length_append, List.length_map,
      List.length_cons, hloss, hentering, innerDuties]
    omega

/-! ## The duties of a whole sweep -/

section Sweep

variable (horder : Linearizes (Function.swap g.Feeds) g.numNodes g.settle.1)
include horder

theorem mem_sweepDuties {d : Duty} : d ∈ g.sweepDuties ↔ g.Owes d := by
  have hnode : g.Owes d → d.node g < g.numNodes := by
    intro h
    cases d with
    | product e => exact g.src_lt h.1
    | loss n => exact h.1
    | derivative n => exact h.1
    | gradient o => exact sink_lt (owes_gradient_iff.1 h).1
  rw [sweepDuties, List.mem_flatMap]
  constructor
  · rintro ⟨n, hn, hd⟩
    exact ((mem_duties ((horder.mem_iff n).1 hn)).1 hd).1
  · intro h
    exact ⟨d.node g, (horder.mem_iff _).2 (hnode h), (mem_duties (hnode h)).2 ⟨h, rfl⟩⟩

theorem nodup_sweepDuties : g.sweepDuties.Nodup := by
  rw [sweepDuties, List.nodup_flatMap]
  refine ⟨fun n _ => nodup_duties n, horder.nodup.imp_of_mem fun {n m} hn hm hne d hd hd' => hne ?_⟩
  have hd := ((mem_duties ((horder.mem_iff n).1 hn)).1 hd).2
  have hd' := ((mem_duties ((horder.mem_iff m).1 hm)).1 hd').2
  exact hd.symm.trans hd'

/-- The destination of an edge settles before the source. -/
theorem exists_settle_split {e : Nat} (he : e < g.numEdges) :
    ∃ front back, g.settle.1 = front ++ g.src e :: back ∧ g.dst e ∈ front := by
  obtain ⟨front, back, hsplit⟩ := List.append_of_mem ((horder.mem_iff _).2 (g.src_lt he))
  exact ⟨front, back, hsplit, horder.mem_front hsplit ⟨e, he, rfl, rfl⟩⟩

theorem sublist_settle {e : Nat} (he : e < g.numEdges) :
    [g.dst e, g.src e].Sublist g.settle.1 := by
  obtain ⟨front, back, hsplit, hdst⟩ := exists_settle_split horder he
  rw [hsplit]
  exact (List.singleton_sublist.2 hdst).append ((List.nil_sublist _).cons_cons _)

/-- The product over an edge comes between the derivatives of its ends. -/
theorem sublist_sweepDuties {e : Nat} (he : e < g.numEdges)
    (hinner : g.isSource (g.src e) = false) :
    [.derivative (g.dst e), .product e, .derivative (g.src e)].Sublist g.sweepDuties := by
  obtain ⟨front, back, hsplit, hdst⟩ := exists_settle_split horder he
  have hderivative : Duty.derivative (g.dst e) ∈ g.duties (g.dst e) :=
    (mem_duties (g.dst_lt he)).2 ⟨⟨g.dst_lt he, isSource_of_feeds ⟨e, he, rfl, rfl⟩⟩, rfl⟩
  rw [sweepDuties, hsplit, List.flatMap_append, List.flatMap_cons]
  exact (List.singleton_sublist.2 (List.mem_flatMap.2 ⟨_, hdst, hderivative⟩)).append
    ((sublist_duties he hinner).trans (List.sublist_append_left _ _))

theorem length_sweepDuties :
    g.sweepDuties.length =
      ∑ n ∈ Finset.range g.numNodes with g.isSource n = false, g.innerDuties n +
        g.outputs.length := by
  have hnodes : g.settle.1.toFinset = Finset.range g.numNodes := by
    ext n
    rw [List.mem_toFinset, Finset.mem_range, horder.mem_iff]
  have houtputs : g.outputs.length =
      ∑ n ∈ Finset.range g.numNodes, if g.isOutput n then 1 else 0 := by
    have hnodup : g.outputs.Nodup := List.nodup_range.filter _
    rw [← Finset.card_filter, ← List.toFinset_card_of_nodup hnodup]
    congr 1
    ext n
    simp [outputs, mem_nodeIds]
  rw [sweepDuties, List.length_flatMap, ← List.sum_toFinset _ horder.nodup, hnodes, houtputs,
    Finset.sum_filter, ← Finset.sum_add_distrib]
  exact Finset.sum_congr rfl fun n _ => length_duties n

end Sweep

end Graph

namespace Tape

variable {α : Type} [Scalar α]

/-- The instruction that serves a duty. The products over the edges out of a node are added to
the first one, and the slope of its loss to the products. -/
inductive Serves (g : Graph α) (l : Layout) (loss : Loss) : Graph.Duty → Instr α → Prop
  | product (e : Nat) : Serves g l loss (.product e)
      (.backprop (l.dataAt (g.dst e)) (l.slotOf (.weight e)) (g.width (g.src e))
        (g.width (g.dst e)) (l.dataAt (g.src e)) (decide (0 < (g.efferents (g.src e)).idxOf e)))
  | loss (n : Nat) : Serves g l loss (.loss n)
      (.outputError loss (l.dataAt n) (l.targetAt n) (l.dataAt n) (g.width n)
        (!g.isSource n && !(g.efferents n).isEmpty))
  | derivative (n : Nat) (f : α → α) (h : (g.activation n).derivative? = some f) :
      Serves g l loss (.derivative n)
        (.applyDerivative f (l.dataAt n) (l.dataAt n) (g.width n))
  | gradient (o : Owner) : Serves g l loss (.gradient o) (gradientInstr g l o)

variable {g : Graph α} {l : Layout} {loss : Loss} {n : Nat}

theorem serves_products (l : Layout) (loss : Loss) (n : Nat) :
    List.Forall₂ (Serves g l loss) ((g.efferents n).map .product)
      (((g.efferents n).map (l.edgeOf g)).zipIdx.map (productBackInstr l n)) := by
  have hnodup := g.nodup_efferents n
  rw [List.forall₂_iff_get]
  refine ⟨by simp, fun i hi hi' => ?_⟩
  have hlt : i < (g.efferents n).length := by simpa using hi
  obtain ⟨he, hsrc⟩ := g.mem_efferents.1 (List.getElem_mem hlt)
  have hidx : (g.efferents n).idxOf (g.efferents n)[i] = i := hnodup.idxOf_getElem i hlt
  have hserves : Serves g l loss (.product (g.efferents n)[i]) _ := .product _
  rw [hsrc, hidx] at hserves
  simpa [productBackInstr, Layout.edgeOf, hsrc] using hserves

theorem serves_loss (l : Layout) (loss : Loss) (n : Nat) :
    List.Forall₂ (Serves g l loss) (g.lossDuties n)
      (lossInstrs g l loss n (!g.isSource n && !(g.efferents n).isEmpty)) := by
  unfold Graph.lossDuties lossInstrs
  split
  · exact .cons (.loss n) .nil
  · exact .nil

/-- The instructions of a node serve its duties. -/
theorem serves_reverseNode (hl : l.Fits g) (hn : n < g.numNodes) (loss : Loss)
    (hd : g.isSource n = false → (g.activation n).derivative?.isSome = true) :
    List.Forall₂ (Serves g l loss) (g.duties n) (reverseNode g l loss n) := by
  have hloss := serves_loss (g := g) l loss n
  cases hsource : g.isSource n with
  | true =>
    have hnone : g.derivative? n = none := by rw [Graph.derivative?, if_pos hsource]
    rw [Graph.duties, if_pos hsource, reverseNode_of_none hl hn loss hnone]
    rwa [hsource] at hloss
  | false =>
    obtain ⟨f, hf⟩ := Option.isSome_iff_exists.1 (hd hsource)
    have hsome : g.derivative? n = some f := by
      rw [Graph.derivative?, hsource, if_neg Bool.false_ne_true, hf]
    rw [Graph.duties, hsource, if_neg Bool.false_ne_true, reverseNode_of_some hl hn loss hsome]
    rw [hsource] at hloss
    have hgradients : List.Forall₂ (Serves g l loss) ((g.entering n).map .gradient)
        ((g.entering n).map (gradientInstr g l)) := by
      rw [List.forall₂_map_left_iff, List.forall₂_map_right_iff, List.forall₂_same]
      exact fun o _ => .gradient o
    exact List.rel_append (List.rel_append (serves_products l loss n) hloss)
      (.cons (.derivative n f hf) hgradients)

/-- The tape of a sweep serves all duties in their order. -/
theorem serves_sweepDuties (hl : l.Fits g) (loss : Loss)
    (hd : ∀ n < g.numNodes, g.isSource n = false → (g.activation n).derivative?.isSome = true)
    (hlt : ∀ n ∈ g.settle.1, n < g.numNodes) :
    List.Forall₂ (Serves g l loss) g.sweepDuties (g.settle.1.flatMap (reverseNode g l loss)) := by
  unfold Graph.sweepDuties
  generalize g.settle.1 = order at hlt ⊢
  induction order with
  | nil => exact .nil
  | cons n ns ih =>
    have hn := hlt n List.mem_cons_self
    rw [List.flatMap_cons, List.flatMap_cons]
    exact List.rel_append (serves_reverseNode hl hn loss (hd n hn))
      (ih fun m hm => hlt m (List.mem_cons_of_mem n hm))

/-- A graph all of whose nodes settle has a sweep if each activation has a derivative, those of
sources excepted. -/
theorem reverse_eq_ok
    (hd : ∀ n < g.numNodes, g.isSource n = false → (g.activation n).derivative?.isSome = true)
    (hlength : g.settle.1.length = g.numNodes) (l : Layout) (loss : Loss) :
    reverse g l loss = .ok (g.settle.1.flatMap (reverseNode g l loss)) := by
  have hfault : g.nodeIds.findSome? g.derivativeFault? = none := by
    rw [List.findSome?_eq_none_iff]
    intro n hn
    rw [Graph.derivativeFault?, if_pos]
    cases hsource : g.isSource n with
    | true => rfl
    | false => exact hd n (g.mem_nodeIds.1 hn) hsource
  simp only [reverse, hfault, hlength, if_true]

/-- **A sweep serves every duty once.** Let a graph have a schedule, and every node of it that is
no source an activation with a derivative. Then the queue of the sweep empties, no count falls
below zero, and every node has settled once, behind all nodes that it feeds. The duties are listed
node by node in this order: all that are owed and nothing else, each once, and the product over an
edge between the derivatives of its destination and of its source. Under every layout of the graph
there is a tape, and it serves these duties one by one. Its length is the number of edges out of and
into each node that is no source, with one more for its derivative and one for its bias if it has
one, and one for each output. -/
theorem reverse_serves_each_duty_once {schedule : Schedule} (hs : g.schedule = .ok schedule)
    (hd : ∀ n < g.numNodes, g.isSource n = false → (g.activation n).derivative?.isSome = true) :
    (g.settle? = some g.settle ∧ g.settle.1.length = g.numNodes ∧ g.settle.1.Nodup ∧
      (∀ n, n ∈ g.settle.1 ↔ n < g.numNodes) ∧
      ∀ e < g.numEdges, [g.dst e, g.src e].Sublist g.settle.1) ∧
    (g.sweepDuties = g.settle.1.flatMap g.duties ∧ g.sweepDuties.Nodup ∧
      (∀ d, d ∈ g.sweepDuties ↔ g.Owes d) ∧
      ∀ e < g.numEdges, g.isSource (g.src e) = false →
        [.derivative (g.dst e), .product e, .derivative (g.src e)].Sublist g.sweepDuties) ∧
    ∀ (h : Host α) (ownership : Ownership) (aux : Nat) (s : Schedule) (l : Layout)
      (store : Store α), Layout.compile g h ownership aux = .ok (s, l, store) → ∀ loss : Loss,
      ∃ tape, reverse g l loss = .ok tape ∧ List.Forall₂ (Serves g l loss) g.sweepDuties tape ∧
        tape.length =
          ∑ n ∈ Finset.range g.numNodes with g.isSource n = false,
            ((g.efferents n).length + (g.afferents n).length + 1 +
              if (g.bias? n).isSome then 1 else 0) + g.outputs.length := by
  have hlength := (Graph.acyclic_of_schedule hs).length_settle
  have horder := Graph.linearizes_settle hlength
  refine ⟨⟨Graph.settle?_eq, hlength, horder.nodup, horder.mem_iff,
    fun e he => Graph.sublist_settle horder he⟩,
    ⟨rfl, Graph.nodup_sweepDuties horder, fun d => Graph.mem_sweepDuties horder,
      fun e he hinner => Graph.sublist_sweepDuties horder he hinner⟩,
    fun h ownership aux s l store hc loss => ?_⟩
  have hserves := serves_sweepDuties (Layout.fits_of_compile hc) loss hd
    fun n hn => (horder.mem_iff n).1 hn
  exact ⟨_, reverse_eq_ok hd hlength l loss, hserves,
    hserves.length_eq.symm.trans (Graph.length_sweepDuties horder)⟩

/-- Two nodes are no sources, with three edges into them, one of which comes from one of them, and
a bias each. One is the output. -/
theorem reverse_serves_each_duty_once_descent :
    ∃ l store tape, Layout.compile .descent .descent .reference 2 = .ok (.descent, l, store) ∧
      reverse .descent l .meanSquare = .ok tape ∧ tape.length = 9 ∧
      [.derivative 0, .product 0, .derivative 1].Sublist Graph.descent.sweepDuties := by
  have hs := Graph.schedule_descent
  have hshape : Graph.descent.shapeFault? = none := by cbv
  have hdistinct : Store.sharedPair? (Graph.descent.parameters.map Prod.snd) = none := by rfl
  obtain ⟨store, hstore⟩ := Store.exists_place hdistinct .reference .descent
  obtain ⟨l, hl⟩ := Layout.exists_ofSchedule hs .reference 2
  have hc : Layout.compile .descent .descent .reference 2 = .ok (.descent, l, store) := by
    simp only [Layout.compile, hs, hshape, hstore, hl]
  have hd : ∀ n < Graph.descent.numNodes, Graph.descent.isSource n = false →
      (Graph.descent.activation n).derivative?.isSome = true := by
    decide
  obtain ⟨-, ⟨-, -, -, hbetween⟩, htape⟩ := reverse_serves_each_duty_once hs hd
  obtain ⟨tape, hr, -, hlength⟩ := htape _ _ _ _ _ _ hc .meanSquare
  exact ⟨l, store, tape, hc, hr, hlength.trans (by decide), hbetween 0 (by decide) (by decide)⟩

end Tape

end GraphTape
