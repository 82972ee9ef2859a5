import GraphTape.Scalar.Double
import GraphTape.Numeral.Text
import GraphTape.Error.Message
import GraphTape.Host.Memory
import GraphTape.Buffer.Matrix
import GraphTape.Network.Activation
import GraphTape.Network.Loss
import GraphTape.Graph.Build
import GraphTape.Memory.Layout
import GraphTape.Tape.Run
import GraphTape.Tape.Evaluation
import GraphTape.Tape.Reverse
import GraphTape.Optimizer.Update
import GraphTape.Engine.Session
import GraphTape.Random.ChaCha
import GraphTape.Random.Uniform
import GraphTape.Proofs.Buffer.Fill
import GraphTape.Proofs.Network.Vector
import GraphTape.Proofs.Graph.Order
import GraphTape.Proofs.Graph.Building
import GraphTape.Proofs.Graph.Waves
import GraphTape.Proofs.Graph.Layers
import GraphTape.Proofs.Graph.Cycles
import GraphTape.Proofs.Graph.Settle
import GraphTape.Proofs.Graph.Meaning
import GraphTape.Proofs.Memory.Tiling
import GraphTape.Proofs.Memory.Placing
import GraphTape.Proofs.Memory.Layout
import GraphTape.Proofs.Tape.Evaluation
import GraphTape.Proofs.Tape.Reverse
import GraphTape.Proofs.Engine.Packing
import GraphTape.Proofs.Engine.Sound
import GraphTape.Proofs.Engine.Forward
import GraphTape.Proofs.Engine.Outputs
import GraphTape.Proofs.Graph.Gradient
import GraphTape.Proofs.Engine.Backward
import GraphTape.Proofs.Graph.Alike
import GraphTape.Proofs.Memory.Store
import GraphTape.Proofs.Memory.Alike
import GraphTape.Proofs.Memory.Offsets
import GraphTape.Proofs.Engine.Twins
import GraphTape.Proofs.Engine.Ownership
import GraphTape.Proofs.Engine.Batch
import GraphTape.Proofs.Engine.Failure
import GraphTape.Proofs.Engine.Workers
import GraphTape.Proofs.Engine.Parallel
import GraphTape.Proofs.Engine.Phases
import GraphTape.Proofs.Engine.Acceptance
import GraphTape.Proofs.Engine.Epochs
import GraphTape.Proofs.Buffer.Part
import GraphTape.Proofs.Tape.Checked
import GraphTape.Proofs.Memory.Access
import GraphTape.Proofs.Optimizer.Checked
import GraphTape.Proofs.Engine.Placed
import GraphTape.Proofs.Engine.Checked
import GraphTape.Proofs.Optimizer.Step
import GraphTape.Proofs.Engine.Effect
import GraphTape.Proofs.Engine.Sums
import GraphTape.Proofs.Engine.Private
import GraphTape.Proofs.Session.Machine
import GraphTape.Proofs.Session.Refinement
import GraphTape.Proofs.Session.Privacy
import GraphTape.Proofs.Engine.Requirements
import GraphTape.Proofs.Optimizer.Moments
import GraphTape.Proofs.Graph.Renumber
import GraphTape.Proofs.Engine.Renumber
import GraphTape.Proofs.Engine.Mirror
import GraphTape.Proofs.Memory.Homes
import GraphTape.Proofs.Optimizer.Elements
import GraphTape.Proofs.Optimizer.Runs
import GraphTape.Proofs.Scalar.Real
import GraphTape.Proofs.Optimizer.Averages
import GraphTape.Proofs.Engine.Faults
import GraphTape.Proofs.Engine.Applying
import GraphTape.Proofs.Network.Softmax
import GraphTape.Proofs.Network.CrossEntropy
import GraphTape.Proofs.Network.Derivative
import GraphTape.Proofs.Optimizer.Saturation
import GraphTape.Proofs.Memory.Cells
import GraphTape.Proofs.Memory.Simulation
import GraphTape.Proofs.Memory.Handles
import GraphTape.Proofs.Tape.Duties
import GraphTape.Proofs.Buffer.Products
