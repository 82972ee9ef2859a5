import GraphTape.Error.Basic
import GraphTape.Host.Memory
import GraphTape.Network.Activation

/-!
# Graphs

Vector-valued nodes joined by weighted edges. A `Graph` is legal by construction: it has a node,
no node has width zero, every edge joins two existing nodes, and no two edges join the same
source to the same destination. It may still have cycles or dead ends; finding them is the task
of scheduling.

* `Graph.afferents`, `Graph.efferents`: the edges into and out of a node, by ascending id.
* `Graph.isSource`: whether no edge enters a node.
* `Graph.parameters`: the tensors of a graph, first all weights and then all biases.
-/

namespace GraphTape

/-- A node: a vector of `width` values, computed by an activation. -/
structure Node (α : Type) where
  name : String
  width : Nat
  activation : Activation α
  isOutput : Bool := false
  /-- Added to the pre-activation. -/
  bias : Option Tensor := none

/-- An edge, with the matrix that takes the source's values to the destination. -/
structure Edge where
  src : Nat
  dst : Nat
  weight : Tensor
  deriving DecidableEq, Inhabited

/-- The ordered pair of nodes that an edge joins. -/
def Edge.ends (e : Edge) : Nat × Nat := (e.src, e.dst)

/-- A legal graph. -/
structure Graph (α : Type) where
  nodes : Array (Node α)
  edges : Array Edge
  nodes_pos : 0 < nodes.size
  width_pos : ∀ n ∈ nodes, 0 < n.width
  ends_lt : ∀ e ∈ edges, e.src < nodes.size ∧ e.dst < nodes.size
  ends_inj : ∀ (i j : Nat) (e f : Edge),
    edges[i]? = some e → edges[j]? = some f → e.ends = f.ends → i = j

/-- What a parameter belongs to: the weight of an edge or the bias of a node. -/
inductive Owner where
  | weight (edge : Nat)
  | bias (node : Nat)
  deriving DecidableEq, Inhabited

namespace Graph

variable {α : Type} (g : Graph α)

/-- The number of nodes. -/
def numNodes : Nat := g.nodes.size

/-- The number of edges. -/
def numEdges : Nat := g.edges.size

/-- All nodes, by ascending id. -/
def nodeIds : List Nat := List.range g.numNodes

/-- All edges, by ascending id. -/
def edgeIds : List Nat := List.range g.numEdges

/-- The name of a node. -/
def name (n : Nat) : String := (g.nodes[n]?).elim "" Node.name

/-- The width of a node, zero for a node that does not exist. -/
def width (n : Nat) : Nat := (g.nodes[n]?).elim 0 Node.width

/-- Whether a node is an output of the graph. -/
def isOutput (n : Nat) : Bool := (g.nodes[n]?).elim false Node.isOutput

/-- The bias of a node, if it has one. -/
def bias? (n : Nat) : Option Tensor := (g.nodes[n]?).bind Node.bias

/-- The activation of a node. -/
def activation [Scalar α] (n : Nat) : Activation α :=
  (g.nodes[n]?).elim .identity Node.activation

/-- The node an edge comes from. -/
def src (e : Nat) : Nat := (g.edges[e]?).elim 0 Edge.src

/-- The node an edge leads to. -/
def dst (e : Nat) : Nat := (g.edges[e]?).elim 0 Edge.dst

/-- The shape a weight needs to take values of the source to the destination. -/
def weightShape (e : Nat) : Shape := .matrix (g.width (g.src e)) (g.width (g.dst e))

/-- The edges into a node, by ascending id. -/
def afferents (n : Nat) : List Nat := g.edgeIds.filter fun e => g.dst e = n

/-- The edges out of a node, by ascending id. -/
def efferents (n : Nat) : List Nat := g.edgeIds.filter fun e => g.src e = n

/-- The sources of the edges into a node, by ascending edge id. -/
def predecessors (n : Nat) : List Nat := (g.afferents n).map g.src

/-- The destinations of the edges out of a node, by ascending edge id. -/
def successors (n : Nat) : List Nat := (g.efferents n).map g.dst

/-- Whether no edge enters a node. -/
def isSource (n : Nat) : Bool := (g.afferents n).isEmpty

/-- The output nodes, by ascending id. -/
def outputs : List Nat := g.nodeIds.filter g.isOutput

/-- The first node of the given name. -/
def findName? (name : String) : Option Nat := g.nodes.findIdx? (·.name == name)

/-- The host tensor of a parameter. -/
def tensor? : Owner → Option Tensor
  | .weight e => g.edges[e]?.map Edge.weight
  | .bias n => g.bias? n

/-- The tensors that hold the weights, by ascending edge id. -/
def weights : List (Owner × Tensor) :=
  g.edges.toList.zipIdx.map fun (e, i) => (.weight i, e.weight)

/-- The tensors that hold the biases, by ascending node id. -/
def biases : List (Owner × Tensor) :=
  g.nodes.toList.zipIdx.filterMap fun (n, i) => n.bias.map fun t => (.bias i, t)

/-- All tensors of the graph with what they belong to: the weights, then the biases. -/
def parameters : List (Owner × Tensor) := g.weights ++ g.biases

/-! ## Incidence -/

theorem mem_nodeIds {n : Nat} : n ∈ g.nodeIds ↔ n < g.numNodes := by
  simp [nodeIds]

theorem mem_edgeIds {e : Nat} : e ∈ g.edgeIds ↔ e < g.numEdges := by
  simp [edgeIds]

theorem mem_afferents {n : Nat} {e : Nat} :
    e ∈ g.afferents n ↔ e < g.numEdges ∧ g.dst e = n := by
  simp [afferents, mem_edgeIds]

theorem mem_efferents {n : Nat} {e : Nat} :
    e ∈ g.efferents n ↔ e < g.numEdges ∧ g.src e = n := by
  simp [efferents, mem_edgeIds]

theorem src_lt {e : Nat} (he : e < g.numEdges) : g.src e < g.numNodes := by
  have h := g.ends_lt g.edges[e] (Array.getElem_mem he)
  simpa [src, numNodes, Array.getElem?_eq_getElem he] using h.1

theorem dst_lt {e : Nat} (he : e < g.numEdges) : g.dst e < g.numNodes := by
  have h := g.ends_lt g.edges[e] (Array.getElem_mem he)
  simpa [dst, numNodes, Array.getElem?_eq_getElem he] using h.2

theorem width_pos_of_lt {n : Nat} (hn : n < g.numNodes) : 0 < g.width n := by
  have h := g.width_pos g.nodes[n] (Array.getElem_mem hn)
  simpa [width, Array.getElem?_eq_getElem hn] using h

end Graph

end GraphTape
