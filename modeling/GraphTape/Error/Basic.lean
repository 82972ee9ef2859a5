import GraphTape.Graph.Ident
import GraphTape.Host.Shape

/-!
# Errors

What can go wrong when a graph is built, compiled, evaluated or trained. Each constructor is one
cause and carries what its report needs. Two families are told apart: `Error.isTopology` for a
defect of the graph itself, `Error.isConfiguration` for a defect of the data or settings a call
was given.
-/

namespace GraphTape

/-- The cause of a failure. -/
inductive Error (α : Type) where
  /-- The graph has a directed cycle through the node. -/
  | cyclicGraph (node : Nat)
  /-- An edge names a node that does not exist. -/
  | danglingEdge (edge : Nat) (node : Nat)
  /-- Two edges join the same source and destination. -/
  | duplicateEdge (first second : Nat) (src dst : Nat)
  /-- Nothing leaves the node and it is not an output. -/
  | deadNode (node : Nat) (name : String)
  /-- A call names a node that does not exist. -/
  | unknownNode (node : Nat)
  /-- A node holds no values. -/
  | zeroWidthNode (node : Nat) (name : String)
  /-- A weight does not take the values of its source to those of its destination. -/
  | edgeShape (edge : Nat) (expected got : Shape)
  /-- A bias is not a vector as wide as its node, or its node is a source and takes none. -/
  | biasShape (node : Nat) (expected got : Shape)
  /-- A vector given for a node has the wrong length. -/
  | inputWidth (node : Nat) (expected got : Nat)
  /-- The elements given for a tensor are not as many as its shape asks for. -/
  | elementCount (shape : Shape) (expected got : Nat)
  /-- A function is used in a way it is not made for. -/
  | unsupportedFunction (node : Nat) (function reason : String)
  /-- A sample has no target for an output node. -/
  | missingTarget (sample : Nat) (node : Nat)
  /-- A sample has a target for a node that is not an output. -/
  | unexpectedTarget (sample : Nat) (node : Nat)
  /-- A source node has no input vector. -/
  | missingInput (node : Nat)
  /-- A node that is not a source has an input vector. -/
  | unexpectedInput (node : Nat)
  /-- A setting is out of its range. -/
  | invalidHyperparameter (name : String) (value : α) (reason : String)
  /-- A training call was given no sample. -/
  | emptyBatch
  /-- A writer of shared storage was interrupted. -/
  | lockPoisoned
  /-- A graph has no node. -/
  | emptyGraph
  /-- A call names an edge that does not exist. -/
  | unknownEdge (edge : Nat)
  /-- A shape has no such dimension. -/
  | dimensionRange (dim : Nat) (shape : Shape)
  /-- A row of a matrix differs in length from the first one. -/
  | raggedMatrix (expected got : Nat)
  /-- Two parameters are backed by the same host storage. -/
  | sharedStorage (first second : Nat)
  /-- A training call was made on a graph compiled for evaluation only. -/
  | notTrainable
  /-- An interval to draw from is empty or not finite. -/
  | invalidRange (low high : α)
  /-- Any other failure, with its own words. -/
  | other (text : String)
  deriving Inhabited

namespace Error

variable {α : Type}

/-- Whether the graph itself is at fault. -/
def isTopology : Error α → Bool
  | cyclicGraph .. | danglingEdge .. | duplicateEdge .. | deadNode .. | unknownNode .. => true
  | _ => false

/-- Whether the data or the settings of a call are at fault. -/
def isConfiguration : Error α → Bool
  | missingTarget .. | unexpectedTarget .. | missingInput .. | unexpectedInput ..
  | invalidHyperparameter .. | emptyBatch => true
  | _ => false

end Error

end GraphTape
