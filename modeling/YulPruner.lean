import YulPruner.Optimizer.ConfigText
import YulPruner.Optimizer.Script
import YulPruner.Pipeline
import YulPruner.Session
import YulPruner.Syntax.Equality
import YulPruner.Syntax.Fragment
import YulPruner.Proofs.Analysis.Index
import YulPruner.Proofs.Analysis.Precondition
import YulPruner.Proofs.Optimizer.Run
import YulPruner.Proofs.Pruning.Calls
import YulPruner.Proofs.Syntax.Callees
import YulPruner.Proofs.Syntax.Items
import YulPruner.Proofs.Analysis.Usage
import YulPruner.Proofs.Execution.Congruence
import YulPruner.Proofs.Execution.Frame
import YulPruner.Proofs.Execution.Shim
import YulPruner.Proofs.Execution.Call
import YulPruner.Proofs.Execution.Program
import YulPruner.Proofs.Optimizer.Behaviour
import YulPruner.Proofs.Optimizer.Flag
import YulPruner.Proofs.Optimizer.Names
import YulPruner.Proofs.Token.Tiling
import YulPruner.Proofs.Token.Lexer
import YulPruner.Proofs.Syntax.Grammar
import YulPruner.Proofs.Syntax.Taking
import YulPruner.Proofs.Syntax.Soundness
import YulPruner.Proofs.Syntax.Completeness
import YulPruner.Proofs.Syntax.Pieces
import YulPruner.Proofs.Syntax.Layout
import YulPruner.Proofs.Syntax.Roundtrip
import YulPruner.Proofs.Pruning.WellFormed
import YulPruner.Proofs.Optimizer.Text
import YulPruner.Proofs.Naming.Least
import YulPruner.Proofs.Pruning.Redirected
import YulPruner.Proofs.Optimizer.Order
import YulPruner.Proofs.Execution.Upkeep
import YulPruner.Proofs.Execution.Invariant
import YulPruner.Proofs.Execution.Arity
import YulPruner.Proofs.Naming.History
import YulPruner.Proofs.Optimizer.Passes
import YulPruner.Proofs.Syntax.Occurrence
import YulPruner.Proofs.Syntax.Listing
import YulPruner.Proofs.Analysis.FirstViolation
import YulPruner.Proofs.Execution.Plan
import YulPruner.Proofs.Execution.Following
import YulPruner.Proofs.Execution.Termination
import YulPruner.Proofs.Execution.RaisedLimits
import YulPruner.Proofs.Execution.UnusedSlots
import YulPruner.Proofs.Syntax.Course
import YulPruner.Proofs.Syntax.Progress
import YulPruner.Proofs.Syntax.Viable
import YulPruner.Proofs.Syntax.ErrorPosition
import YulPruner.Proofs.Syntax.Fragments
import YulPruner.Proofs.Execution.Replay
import YulPruner.Proofs.Syntax.Shape
import YulPruner.Proofs.Pruning.Reversal
import YulPruner.Proofs.Syntax.Enclosure
import YulPruner.Proofs.Execution.Jumps
import YulPruner.Proofs.Syntax.Features
import YulPruner.Proofs.Syntax.Depth
import YulPruner.Proofs.Pruning.Features
import YulPruner.Proofs.Optimizer.Guard
import YulPruner.Proofs.Syntax.Nesting
