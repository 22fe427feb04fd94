import GateFusion.Binary64.Basic
import GateFusion.Binary64.Hypotenuse
import GateFusion.Binary64.Rounding
import GateFusion.Cartesian
import GateFusion.Circuit.Builder
import GateFusion.Circuit.Error
import GateFusion.Circuit.Graph
import GateFusion.Circuit.Integrity
import GateFusion.Circuit.Order
import GateFusion.Circuit.Replace
import GateFusion.Command.Arguments
import GateFusion.Command.Binding
import GateFusion.Command.Compile
import GateFusion.Command.Directory
import GateFusion.Command.Dispatch
import GateFusion.Command.FileFault
import GateFusion.Command.Host
import GateFusion.Command.Load
import GateFusion.Command.Phases
import GateFusion.Command.Run
import GateFusion.Command.Session
import GateFusion.CompileError
import GateFusion.Decimal.Reader
import GateFusion.Decimal.Shortest
import GateFusion.Decimal.Text
import GateFusion.Document.Circuit
import GateFusion.Document.Config
import GateFusion.Document.Expression
import GateFusion.Document.Fields
import GateFusion.Document.Format
import GateFusion.Document.Json
import GateFusion.Document.Node
import GateFusion.Document.Plain
import GateFusion.Document.Yaml
import GateFusion.Document.Yaml.Character
import GateFusion.Document.Yaml.Cursor
import GateFusion.Document.Yaml.Layout
import GateFusion.Document.Yaml.Scalar
import GateFusion.Document.Yaml.Token
import GateFusion.Document.Yaml.Tree
import GateFusion.Fusion.Candidates
import GateFusion.Fusion.Config
import GateFusion.Fusion.Cost
import GateFusion.Fusion.Engine
import GateFusion.Gate.Basic
import GateFusion.Gate.Compose
import GateFusion.Gate.Standard
import GateFusion.Kernel.Backend
import GateFusion.Kernel.Bits
import GateFusion.Kernel.Indexing
import GateFusion.Kernel.Preparation
import GateFusion.Kernel.Spec
import GateFusion.Main
import GateFusion.Matrix.Basic
import GateFusion.Matrix.Entry
import GateFusion.OrderedMap
import GateFusion.Parameter.Angle
import GateFusion.Parameter.Expr
import GateFusion.Parameter.Polynomial
import GateFusion.Proofs.Circuit.AddBlock
import GateFusion.Proofs.Circuit.Adjacency
import GateFusion.Proofs.Circuit.Alike
import GateFusion.Proofs.Circuit.Arena
import GateFusion.Proofs.Circuit.Builder
import GateFusion.Proofs.Circuit.Contraction
import GateFusion.Proofs.Circuit.Dependency
import GateFusion.Proofs.Circuit.Exchange
import GateFusion.Proofs.Circuit.Fusable
import GateFusion.Proofs.Circuit.Integrity
import GateFusion.Proofs.Circuit.Least
import GateFusion.Proofs.Circuit.Listing
import GateFusion.Proofs.Circuit.Merge
import GateFusion.Proofs.Circuit.Mirror
import GateFusion.Proofs.Circuit.Names
import GateFusion.Proofs.Circuit.Order
import GateFusion.Proofs.Circuit.Origins
import GateFusion.Proofs.Circuit.Reachable
import GateFusion.Proofs.Circuit.Reassign
import GateFusion.Proofs.Circuit.Repair
import GateFusion.Proofs.Circuit.Replace
import GateFusion.Proofs.Circuit.Rerank
import GateFusion.Proofs.Circuit.Search
import GateFusion.Proofs.Circuit.Splice
import GateFusion.Proofs.Circuit.Trail
import GateFusion.Proofs.Circuit.Verified
import GateFusion.Proofs.Circuit.Wiring
import GateFusion.Proofs.Command.Binding
import GateFusion.Proofs.Comparable
import GateFusion.Proofs.Exact
import GateFusion.Proofs.Fourier.Stages
import GateFusion.Proofs.Fourier.Transform
import GateFusion.Proofs.Fusion.Candidates
import GateFusion.Proofs.Fusion.Engine
import GateFusion.Proofs.Fusion.Faithful
import GateFusion.Proofs.Fusion.Greedy
import GateFusion.Proofs.Fusion.Layout
import GateFusion.Proofs.Fusion.Operations
import GateFusion.Proofs.Fusion.Savings
import GateFusion.Proofs.Fusion.Success
import GateFusion.Proofs.Fusion.Turns
import GateFusion.Proofs.Gate.Binding
import GateFusion.Proofs.Gate.Compose
import GateFusion.Proofs.Gate.Evaluation
import GateFusion.Proofs.Gate.Standard
import GateFusion.Proofs.Gate.Symbolic
import GateFusion.Proofs.Gate.Unitary
import GateFusion.Proofs.Kernel.Buffer
import GateFusion.Proofs.Kernel.Checked
import GateFusion.Proofs.Kernel.Deposit
import GateFusion.Proofs.Kernel.Groups
import GateFusion.Proofs.Kernel.Lowering
import GateFusion.Proofs.Kernel.Partition
import GateFusion.Proofs.Kernel.Preparation
import GateFusion.Proofs.Kernel.Rounds
import GateFusion.Proofs.Kernel.Run
import GateFusion.Proofs.Kernel.Slots
import GateFusion.Proofs.Loops
import GateFusion.Proofs.Matrix.Entry
import GateFusion.Proofs.Matrix.Extend
import GateFusion.Proofs.Matrix.Functor
import GateFusion.Proofs.Matrix.Product
import GateFusion.Proofs.Matrix.Reduced
import GateFusion.Proofs.Ordered
import GateFusion.Proofs.OrderedMap
import GateFusion.Proofs.Parameter.Angle
import GateFusion.Proofs.Parameter.Evaluation
import GateFusion.Proofs.Parameter.Factors
import GateFusion.Proofs.Parameter.KeyOrder
import GateFusion.Proofs.Parameter.Lowering
import GateFusion.Proofs.Parameter.NormalForm
import GateFusion.Proofs.Parameter.Polynomial
import GateFusion.Proofs.Reals
import GateFusion.Proofs.Simulation.Agreement
import GateFusion.Proofs.Simulation.Norm
import GateFusion.Proofs.Simulation.Pipeline
import GateFusion.Proofs.Simulation.Sampling
import GateFusion.Proofs.Simulation.Width
import GateFusion.Proofs.State.Action
import GateFusion.Proofs.State.Apply
import GateFusion.Proofs.State.Bits
import GateFusion.Proofs.State.Dense
import GateFusion.Proofs.State.Failure
import GateFusion.Proofs.State.History
import GateFusion.Proofs.State.Norm
import GateFusion.Proofs.State.Operator
import GateFusion.Proofs.State.Reorder
import GateFusion.Proofs.State.Schedule
import GateFusion.Proofs.State.Sequential
import GateFusion.Qubit
import GateFusion.Scalar
import GateFusion.Simulation.Error
import GateFusion.Simulation.Interpreter
import GateFusion.Simulation.Pipeline
import GateFusion.Simulation.Sampling
import GateFusion.Simulation.Statevector
import GateFusion.Text.Blank
import GateFusion.Text.Hidden
import GateFusion.Text.Quoted
import GateFusion.Text.Radix
