import FramePlacement.Capture
import FramePlacement.Checked
import FramePlacement.Dataflow.Classic
import FramePlacement.Dataflow.Problem
import FramePlacement.Dataflow.Setup
import FramePlacement.Dataflow.Solver
import FramePlacement.Effects
import FramePlacement.Fault
import FramePlacement.FlowGraph
import FramePlacement.FlowGraph.Order
import FramePlacement.FlowGraph.Table
import FramePlacement.FlowGraph.Traversal
import FramePlacement.IdMap
import FramePlacement.IdSet
import FramePlacement.IdSet.Ascending
import FramePlacement.Insn
import FramePlacement.Layout
import FramePlacement.Layout.Lemmas
import FramePlacement.Layout.Linked
import FramePlacement.Layout.Row
import FramePlacement.Literal.Binary64
import FramePlacement.Literal.Number
import FramePlacement.Literal.Quoted
import FramePlacement.Literal.Shortest
import FramePlacement.Literal.Unprintable
import FramePlacement.Operand
import FramePlacement.Placement.Insert
import FramePlacement.Placement.Load
import FramePlacement.Placement.Store
import FramePlacement.Placer
import FramePlacement.Proofs.Acceptance
import FramePlacement.Proofs.Agreement
import FramePlacement.Proofs.Allocation
import FramePlacement.Proofs.Backward
import FramePlacement.Proofs.BackwardWalk
import FramePlacement.Proofs.BestSolution
import FramePlacement.Proofs.Candidates
import FramePlacement.Proofs.CaptureSummaries
import FramePlacement.Proofs.Conservatism
import FramePlacement.Proofs.ControlTransfers
import FramePlacement.Proofs.Decomposition
import FramePlacement.Proofs.Equations
import FramePlacement.Proofs.Escape
import FramePlacement.Proofs.ExactPlacement
import FramePlacement.Proofs.Exploration
import FramePlacement.Proofs.Exposure
import FramePlacement.Proofs.Extension
import FramePlacement.Proofs.Fixpoint
import FramePlacement.Proofs.Forward
import FramePlacement.Proofs.FreshVariables
import FramePlacement.Proofs.Handover
import FramePlacement.Proofs.Idempotence
import FramePlacement.Proofs.InsertionPoints
import FramePlacement.Proofs.Insertions
import FramePlacement.Proofs.Irredundance
import FramePlacement.Proofs.Iteration
import FramePlacement.Proofs.Justification
import FramePlacement.Proofs.Lifting
import FramePlacement.Proofs.LinkedLayout
import FramePlacement.Proofs.LinkedSteps
import FramePlacement.Proofs.Links
import FramePlacement.Proofs.Liveness
import FramePlacement.Proofs.Lockstep
import FramePlacement.Proofs.Machine
import FramePlacement.Proofs.Meets
import FramePlacement.Proofs.Nesting
import FramePlacement.Proofs.NumberText
import FramePlacement.Proofs.Path
import FramePlacement.Proofs.PathMeet
import FramePlacement.Proofs.PathVariables
import FramePlacement.Proofs.Phase
import FramePlacement.Proofs.PostOrder
import FramePlacement.Proofs.Quoting
import FramePlacement.Proofs.Reachability
import FramePlacement.Proofs.Reuse
import FramePlacement.Proofs.Settled
import FramePlacement.Proofs.SharedSearch
import FramePlacement.Proofs.ShortestDigits
import FramePlacement.Proofs.Soundness
import FramePlacement.Proofs.Staleness
import FramePlacement.Proofs.StorePlacement
import FramePlacement.Proofs.StructuralRules
import FramePlacement.Proofs.Sweep
import FramePlacement.Proofs.Syncing
import FramePlacement.Proofs.Transfers
import FramePlacement.Proofs.Verified
import FramePlacement.Proofs.VerifierWalk
import FramePlacement.Proofs.VisitBound
import FramePlacement.Proofs.Weaving
import FramePlacement.Reach
import FramePlacement.Run
import FramePlacement.Scope
import FramePlacement.Scope.Builder
import FramePlacement.Scope.Indexed
import FramePlacement.Scope.Listing
import FramePlacement.Variable
import FramePlacement.Variable.Indexed
import FramePlacement.Verifier
import FramePlacement.Verifier.Walk
