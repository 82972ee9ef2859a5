/-!
# Identifiers

Nodes and edges are known by their position in the graph, a natural number counted from zero.
In text a node is an `n` and an edge an `e`, followed by the position.
-/

namespace GraphTape.Ident

/-- A node as messages name it. -/
def node (n : Nat) : String := "n" ++ toString n

/-- An edge as messages name it. -/
def edge (e : Nat) : String := "e" ++ toString e

end GraphTape.Ident
