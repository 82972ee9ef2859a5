import GraphTape.Graph.Schedule
import GraphTape.Memory.Store

/-!
# Layouts

The offsets a compiled graph works with, all decided once. Input vectors are packed in schedule
order, targets by ascending node id, and the node values in schedule order; parameters are
numbered with all weights first and all biases after them.

* `Graph.shapeFault?`: the first weight or bias whose shape does not fit.
* `Layout.Placing`: the pass over the nodes in which every node gets its slot.
* `Layout.compile`: the schedule, the layout and the parameter store of a graph, or the first
  reason why it has none: scheduling, then shapes, then shared storage.
-/

namespace GraphTape

/-- The offsets of one node. -/
structure NodeSlot where
  id : Nat
  width : Nat
  /-- The first element in each bank of node values. -/
  data : Nat
  /-- The first element in the packed inputs, for a source node. -/
  input : Option Nat
  /-- The first element in the packed targets, for an output node. -/
  target : Option Nat
  bias : Option Slot
  deriving DecidableEq

/-- The offsets of one edge. -/
structure EdgeSlot where
  id : Nat
  src : Nat
  dst : Nat
  /-- The width of the source. -/
  rows : Nat
  /-- The width of the destination. -/
  cols : Nat
  /-- The position among the edges into the destination. -/
  position : Nat
  weight : Slot
  deriving DecidableEq

/-- The offsets of a compiled graph, with the lengths of the regions they point into. -/
structure Layout where
  nodes : List NodeSlot
  edges : List EdgeSlot
  afferents : List (List Nat)
  efferents : List (List Nat)
  /-- All parameters in flat order. -/
  params : List (Owner × Slot)
  ownership : Ownership
  inputLen : Nat
  targetLen : Nat
  /-- The length of each bank of node values. -/
  dataLen : Nat
  /-- The width of the widest node. -/
  scratchLen : Nat
  /-- The number of parameter elements. -/
  paramLen : Nat
  optimizerLen : Nat
  deriving DecidableEq

namespace Graph

variable {α : Type} (g : Graph α)

/-- The report of a weight whose shape does not fit its edge. -/
def weightFault? (e : Nat) : Option (Error α) :=
  match g.edges[e]? with
  | none => none
  | some edge =>
    if edge.weight.shape = g.weightShape e then none
    else some (.edgeShape e (g.weightShape e) edge.weight.shape)

/-- The report of a bias on a source, which takes none, or of one whose shape does not fit. -/
def biasFault? (n : Nat) : Option (Error α) :=
  match g.bias? n with
  | none => none
  | some bias =>
    if g.isSource n then some (.biasShape n (.vector 0) bias.shape)
    else if bias.shape = .vector (g.width n) then none
    else some (.biasShape n (.vector (g.width n)) bias.shape)

/-- The first weight, and then the first bias, whose shape does not fit. -/
def shapeFault? : Option (Error α) :=
  (g.edgeIds.findSome? g.weightFault?).or (g.nodeIds.findSome? g.biasFault?)

end Graph

namespace Layout

variable {α : Type}

/-- The node slots that are handed out, by node id, and how much of every region they take up. -/
structure Placing where
  slots : List (Option NodeSlot)
  dataLen : Nat
  inputLen : Nat
  /-- The width of the widest node so far. -/
  scratchLen : Nat

namespace Placing

/-- No slot is handed out. -/
def start (numNodes : Nat) : Placing :=
  { slots := List.replicate numNodes none, dataLen := 0, inputLen := 0, scratchLen := 0 }

/-- The next slot goes to node `n`. -/
def add (g : Graph α) (params : List (Owner × Slot)) (p : Placing) (n : Nat) : Placing :=
  { slots := p.slots.set n <| some
      { id := n
        width := g.width n
        data := p.dataLen
        input := if g.isSource n then some p.inputLen else none
        target := none
        bias := params.lookup (.bias n) }
    dataLen := p.dataLen + g.width n
    inputLen := if g.isSource n then p.inputLen + g.width n else p.inputLen
    scratchLen := max p.scratchLen (g.width n) }

/-- The slot of a node, which has to be handed out. -/
def slot (p : Placing) (n : Nat) : Except (Error α) NodeSlot :=
  match p.slots[n]?.join with
  | some slot => .ok slot
  | none => .error (.unknownNode n)

end Placing

/-- Packs the targets of the output nodes from `targetLen` on. Returns the slots and the length of
the packed targets. -/
def placeTargets (g : Graph α) (targetLen : Nat) : List NodeSlot → List NodeSlot × Nat
  | [] => ([], targetLen)
  | slot :: slots =>
    if g.isOutput slot.id then
      let placed := placeTargets g (targetLen + slot.width) slots
      ({ slot with target := some targetLen } :: placed.1, placed.2)
    else
      let placed := placeTargets g targetLen slots
      (slot :: placed.1, placed.2)

/-- The offsets of an edge, which has to be among the edges into its destination. Its weight is
the parameter of the same number. -/
def edgeSlot (g : Graph α) (params : List (Owner × Slot)) (e : Nat) : Except (Error α) EdgeSlot :=
  match (g.afferents (g.dst e)).idxOf? e, params[e]? with
  | some position, some (_, weight) =>
    .ok
      { id := e
        src := g.src e
        dst := g.dst e
        rows := g.width (g.src e)
        cols := g.width (g.dst e)
        position
        weight }
  | _, _ => .error (.danglingEdge e (g.dst e))

/-- The layout of a scheduled graph. Nodes are placed in the order of the schedule, and targets
once all nodes are. -/
def ofSchedule (g : Graph α) (s : Schedule) (ownership : Ownership) (auxPerParam : Nat) :
    Except (Error α) Layout := do
  let params := g.slots ownership
  let paramLen := packedLength (fun p : Owner × Slot => p.2.len) params
  let placing := s.order.foldl (Placing.add g params) (.start g.numNodes)
  let placed := placeTargets g 0 (← g.nodeIds.mapM placing.slot)
  let edges ← g.edgeIds.mapM (edgeSlot g params)
  return {
    nodes := placed.1
    edges
    afferents := g.nodeIds.map g.afferents
    efferents := g.nodeIds.map g.efferents
    params
    ownership
    inputLen := placing.inputLen
    targetLen := placed.2
    dataLen := placing.dataLen
    scratchLen := placing.scratchLen
    paramLen
    optimizerLen := auxPerParam * paramLen }

/-- The schedule, the layout and the parameter store of a graph. The optimizer region gets
`auxPerParam` elements for each parameter element. -/
def compile (g : Graph α) (h : Host α) (ownership : Ownership) (auxPerParam : Nat) :
    Except (Error α) (Schedule × Layout × Store α) :=
  match g.schedule with
  | .error e => .error e
  | .ok schedule =>
    match g.shapeFault? with
    | some fault => .error fault
    | none =>
      match Store.place ownership h (g.parameters.map Prod.snd) with
      | .error e => .error e
      | .ok store =>
        match ofSchedule g schedule ownership auxPerParam with
        | .error e => .error e
        | .ok layout => .ok (schedule, layout, store)

/-- The slots of all parameters in flat order. -/
def slots (l : Layout) : List Slot := l.params.map Prod.snd

/-- The first element of a node in the banks of node values. -/
def dataAt (l : Layout) (n : Nat) : Nat := (l.nodes[n]?).elim 0 NodeSlot.data

/-- The edges into a node with their offsets. -/
def afferentSlots (l : Layout) (n : Nat) : List EdgeSlot :=
  (l.afferents[n]?.getD []).filterMap fun e => l.edges[e]?

/-- The edges out of a node with their offsets. -/
def efferentSlots (l : Layout) (n : Nat) : List EdgeSlot :=
  (l.efferents[n]?.getD []).filterMap fun e => l.edges[e]?

end Layout

end GraphTape
