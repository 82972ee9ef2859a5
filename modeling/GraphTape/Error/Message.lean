import GraphTape.Error.Basic
import GraphTape.Numeral.Text

/-!
# Messages

The one line of text that reports an error.
-/

namespace GraphTape

/-- A name between apostrophes. -/
def quoted (name : String) : String := "\x27" ++ name ++ "\x27"

/-- The report of an error. Numbers are written in full with the fewest digits that read back. -/
def Error.message : Error Float → String
  | .cyclicGraph node => s!"graph contains a cycle through node {Ident.node node}"
  | .danglingEdge edge node =>
    s!"edge {Ident.edge edge} refers to unknown node {Ident.node node}"
  | .duplicateEdge first second src dst =>
    s!"edges {Ident.edge first} and {Ident.edge second} both connect " ++
      s!"{Ident.node src} -> {Ident.node dst}"
  | .deadNode node name =>
    "node " ++ Ident.node node ++ " (" ++ quoted name ++
      ") has no outgoing edges and is not an output"
  | .unknownNode node => s!"unknown node {Ident.node node}"
  | .zeroWidthNode node name => "node " ++ Ident.node node ++ " (" ++ quoted name ++ ") has width 0"
  | .edgeShape edge expected got =>
    s!"edge {Ident.edge edge}: weight shape {got.text} does not match expected {expected.text}"
  | .biasShape node expected got =>
    s!"node {Ident.node node}: bias shape {got.text} does not match expected {expected.text}"
  | .inputWidth node expected got =>
    s!"node {Ident.node node}: expected a vector of width {expected}, got {got}"
  | .elementCount shape expected got =>
    s!"element count mismatch: shape {shape.text} requires {expected} elements, got {got}"
  | .unsupportedFunction node function reason =>
    "unsupported function " ++ quoted function ++ s!" on node {Ident.node node}: {reason}"
  | .missingTarget sample node =>
    s!"sample {sample}: missing target for output node {Ident.node node}"
  | .unexpectedTarget sample node =>
    s!"sample {sample}: target supplied for non-output node {Ident.node node}"
  | .missingInput node => s!"missing input for source node {Ident.node node}"
  | .unexpectedInput node => s!"input supplied for non-source node {Ident.node node}"
  | .invalidHyperparameter name value reason =>
    s!"invalid hyperparameter {name} = {Numeral.plain value}: {reason}"
  | .emptyBatch => "training batch is empty"
  | .lockPoisoned => "tensor storage lock poisoned"
  | .emptyGraph => "graph has no nodes"
  | .unknownEdge edge => s!"unknown edge {Ident.edge edge}"
  | .dimensionRange dim shape => s!"dim {dim} out of range for shape {shape.text}"
  | .raggedMatrix expected got => s!"ragged matrix: expected rows of length {expected}, got {got}"
  | .sharedStorage first second =>
    s!"the same host tensor backs parameters {first} and {second}; " ++
      "each parameter needs its own storage"
  | .notTrainable => "graph was compiled without a training kernel"
  | .invalidRange low high =>
    s!"uniform: invalid range [{Numeral.plain low}, {Numeral.plain high})"
  | .other text => text

end GraphTape
