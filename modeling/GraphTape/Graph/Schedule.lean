import GraphTape.Graph.Basic

/-!
# Schedules

The order in which nodes can be evaluated. The first set holds the nodes that no edge enters, and
each further set the nodes all of whose predecessors lie in earlier sets, by ascending id. How many
predecessors a node still waits for is counted down as sets are assigned.

* `Graph.layer`: assigns set after set, or reports a node on a cycle.
* `Graph.deadNode?`: the first node that nothing leaves and that is not an output.
* `Graph.schedule`: the schedule of an acyclic graph without dead nodes. A cycle is reported
  before a dead node.
-/

namespace GraphTape

/-- Nodes that do not depend on each other, and the position of their set. -/
structure ExecutionSet where
  index : Nat
  nodes : List Nat
  deriving DecidableEq, Inhabited

/-- The sets of a graph, first to last, and for each node the index of its set, if it has one. -/
structure Schedule where
  sets : List ExecutionSet
  setOf : List (Option Nat)
  deriving DecidableEq, Inhabited

namespace Schedule

/-- The nodes of each set. -/
def waves (s : Schedule) : List (List Nat) := s.sets.map ExecutionSet.nodes

/-- All nodes, set after set. -/
def order (s : Schedule) : List Nat := s.waves.flatten

/-- The number of sets. -/
def length (s : Schedule) : Nat := s.sets.length

/-- The index of the set of a node. -/
def waveOf (s : Schedule) (n : Nat) : Nat := (s.setOf[n]?.join).getD 0

end Schedule

namespace Graph

variable {α : Type} (g : Graph α)

/-- Walks from node to remaining predecessor until a node comes up for the second time. The
unvisited nodes are those that have not come up yet. -/
def walkBack (remaining unvisited : List Nat) (n : Nat) : Nat :=
  if _h : n ∈ unvisited then
    match (g.predecessors n).find? fun p => decide (p ∈ remaining) with
    | some p => walkBack remaining (unvisited.erase n) p
    | none => n
  else n
termination_by unvisited.length
decreasing_by
  have := List.length_pos_of_mem _h
  rw [List.length_erase_of_mem _h]
  omega

/-- A node on a cycle among the remaining nodes, when none of them is ready: the walk back from
the first of them leads into a cycle and ends on it. -/
def cycleMember (remaining : List Nat) : Nat :=
  g.walkBack remaining g.nodeIds (remaining.headD 0)

/-- Counts down the predecessors that a node waits for. -/
def release (pending : List Nat) (n : Nat) : List Nat := pending.modify n (· - 1)

end Graph

/-- A schedule in the making: besides the sets so far, how many predecessors each node waits for
and how many nodes are assigned. -/
structure Layering extends Schedule where
  pending : List Nat
  assigned : Nat

namespace Layering

variable {α : Type}

/-- No node is assigned. -/
def start (g : Graph α) : Layering where
  sets := []
  setOf := g.nodeIds.map fun _ => none
  pending := g.nodeIds.map fun n => (g.afferents n).length
  assigned := 0

/-- The nodes that no set is assigned to. -/
def remaining (g : Graph α) (l : Layering) : List Nat :=
  g.nodeIds.filter fun n => decide (l.setOf[n]? = some none)

/-- The unassigned nodes that wait for no predecessor. -/
def due (g : Graph α) (l : Layering) : List Nat :=
  g.nodeIds.filter fun n => decide (l.setOf[n]? = some none) && decide (l.pending[n]? = some 0)

/-- Adds a set. Its nodes are assigned before any of their successors is released. -/
def add (g : Graph α) (l : Layering) (wave : List Nat) : Layering where
  sets := l.sets ++ [⟨l.sets.length, wave⟩]
  setOf := wave.foldl (fun setOf n => setOf.set n (some l.sets.length)) l.setOf
  pending := (wave.flatMap g.successors).foldl Graph.release l.pending
  assigned := l.assigned + wave.length

end Layering

namespace Graph

variable {α : Type} (g : Graph α)

/-- Assigns set after set until no node is left, or reports a cycle among the nodes that are. -/
def layer (l : Layering) : Except (Error α) Layering :=
  if _h : l.assigned < g.numNodes then
    if _hdue : l.due g = [] then .error (.cyclicGraph (g.cycleMember (l.remaining g)))
    else layer (l.add g (l.due g))
  else .ok l
termination_by g.numNodes - l.assigned
decreasing_by
  have := List.length_pos_iff.2 _hdue
  simp only [Layering.add]
  omega

/-- The first node that nothing leaves and that is not an output. -/
def deadNode? : Option Nat :=
  g.nodeIds.find? fun n => !g.isOutput n && (g.efferents n).isEmpty

/-- The schedule of a graph, or the first reason why it has none. -/
def schedule : Except (Error α) Schedule :=
  match g.layer (.start g) with
  | .error e => .error e
  | .ok l =>
    match g.deadNode? with
    | some n => .error (.deadNode n (g.name n))
    | none => .ok l.toSchedule

end Graph

end GraphTape
