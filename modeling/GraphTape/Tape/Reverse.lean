import GraphTape.Tape.Instr

/-!
# Reverse sweeps

The tape that follows the errors of one sample back through the graph. A node is settled once
all of its successors are; the order is that of a queue which starts with the nodes that nothing
leaves and takes in a node when its last successor settles.

* `Graph.settle`: the nodes in the order in which they settle, with the counts that remain.
* `Tape.reverseNode`: the instructions of one node. The errors of its successors come in by
  ascending edge id, then the loss if it is an output, then the derivative; the gradients of the
  weights into it and of its bias follow.
* `Tape.reverse`: the whole tape, for a graph whose activations all have a derivative, sources
  excepted.
-/

namespace GraphTape

namespace Graph

/-- Counts down the unsettled successors of node `p`, which joins the queue at zero. -/
def countDown (state : List Nat × List Nat) (p : Nat) : List Nat × List Nat :=
  match state.1[p]? with
  | some 1 => (state.1.set p 0, state.2 ++ [p])
  | some (k + 2) => (state.1.set p (k + 1), state.2)
  | _ => state

/-- What is left to do: the nodes in the queue and those that wait for a successor. -/
def unsettled (state : List Nat × List Nat) : Nat :=
  state.2.length + state.1.countP fun k => decide (0 < k)

theorem unsettled_countDown (state : List Nat × List Nat) (p : Nat) :
    unsettled (countDown state p) = unsettled state := by
  unfold countDown
  split
  · rename_i h
    obtain ⟨hlt, hp⟩ := List.getElem?_eq_some_iff.1 h
    have hpos : 0 < state.1.countP fun k => decide (0 < k) :=
      List.countP_pos_iff.2 ⟨_, List.getElem_mem hlt, by simp [hp]⟩
    simp [unsettled, List.countP_set hlt, hp]
    omega
  · rename_i k h
    obtain ⟨hlt, hp⟩ := List.getElem?_eq_some_iff.1 h
    have hpos : 0 < state.1.countP fun k => decide (0 < k) :=
      List.countP_pos_iff.2 ⟨_, List.getElem_mem hlt, by simp [hp]⟩
    simp [unsettled, List.countP_set hlt, hp]
    omega
  · rfl

theorem unsettled_foldl_countDown (ps : List Nat) (state : List Nat × List Nat) :
    unsettled (ps.foldl countDown state) = unsettled state := by
  induction ps generalizing state with
  | nil => rfl
  | cons p ps ih => rw [List.foldl_cons, ih, unsettled_countDown]

variable {α : Type} (g : Graph α)

/-- Settles the nodes of the queue, and those that join it, first come first served. Returns
them in this order, with the counts of unsettled successors that remain. -/
def drain (pending queue : List Nat) : List Nat × List Nat :=
  match queue with
  | [] => ([], pending)
  | n :: rest =>
    let state := (g.predecessors n).foldl countDown (pending, rest)
    let (order, left) := drain state.1 state.2
    (n :: order, left)
termination_by unsettled (pending, queue)
decreasing_by
  have := unsettled_foldl_countDown (g.predecessors n) (pending, rest)
  simp only [unsettled, List.length_cons] at *
  omega

/-- The nodes in the order in which they settle, with the counts of unsettled successors that
remain. -/
def settle : List Nat × List Nat :=
  g.drain (g.nodeIds.map fun n => (g.efferents n).length)
    (g.nodeIds.filter fun n => (g.efferents n).isEmpty)

variable [Scalar α]

/-- The derivative by which a node's error is multiplied; a source has none. -/
def derivative? (n : Nat) : Option (α → α) :=
  if g.isSource n then none else (g.activation n).derivative?

/-- The report of a node that cannot be trained through. -/
def derivativeFault? (n : Nat) : Option (Error α) :=
  if g.isSource n || (g.activation n).derivative?.isSome then none
  else
    some (.unsupportedFunction n (g.activation n).name
      "activation has no derivative kernel; it cannot be trained through")

end Graph

namespace Tape

variable {α : Type} [Scalar α]

/-- The instructions that settle one node. -/
def reverseNode (g : Graph α) (l : Layout) (loss : Loss) (n : Nat) : Tape α :=
  match l.nodes[n]? with
  | none => []
  | some slot =>
    let inner := (g.derivative? n).isSome
    let efferents := l.efferentSlots n
    let errors : Tape α :=
      if inner then
        efferents.zipIdx.map fun (e, i) =>
          .backprop (l.dataAt e.dst) e.weight e.rows e.cols slot.data (decide (0 < i))
      else []
    let losses : Tape α :=
      slot.target.toList.map fun target =>
        .outputError loss slot.data target slot.data slot.width (inner && !efferents.isEmpty)
    let gradients : Tape α :=
      match g.derivative? n with
      | none => []
      | some derivative =>
        .applyDerivative derivative slot.data slot.data slot.width ::
          ((l.afferentSlots n).map fun e =>
            .weightGrad (l.dataAt e.src) slot.data e.rows e.cols e.weight.flat) ++
          (slot.bias.toList.map fun bias => .biasGrad slot.data bias.flat slot.width)
    errors ++ losses ++ gradients

/-- The reverse sweep of a graph, or the first node that cannot be trained through. A node that
never settles would lie on a cycle. -/
def reverse (g : Graph α) (l : Layout) (loss : Loss) : Except (Error α) (Tape α) :=
  match g.nodeIds.findSome? g.derivativeFault? with
  | some fault => .error fault
  | none =>
    let (order, left) := g.settle
    if order.length = g.numNodes then .ok (order.flatMap (reverseNode g l loss))
    else .error (.cyclicGraph ((left.findIdx? fun k => decide (0 < k)).getD 0))

end Tape

end GraphTape
