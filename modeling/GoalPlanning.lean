import GoalPlanning.Action.Basic
import GoalPlanning.Action.Draft
import GoalPlanning.Agent
import GoalPlanning.Binary64.Arithmetic
import GoalPlanning.Binary64.Basic
import GoalPlanning.Binary64.Rounding
import GoalPlanning.Decimal.Positional
import GoalPlanning.Decimal.Shortest
import GoalPlanning.Dot.Graph
import GoalPlanning.Dot.Label
import GoalPlanning.Drawing
import GoalPlanning.Estimate
import GoalPlanning.Failure
import GoalPlanning.Output.ByteWriter
import GoalPlanning.Output.TextSink
import GoalPlanning.Planner
import GoalPlanning.Problem
import GoalPlanning.Proofs.Agreement
import GoalPlanning.Proofs.Binary64.Ceilings
import GoalPlanning.Proofs.Binary64.Quotients
import GoalPlanning.Proofs.Binary64.RoundingOrder
import GoalPlanning.Proofs.Binary64.SignedSums
import GoalPlanning.Proofs.Binary64.Sums
import GoalPlanning.Proofs.Binary64.WholeNumbers
import GoalPlanning.Proofs.Bookkeeping
import GoalPlanning.Proofs.CarriedOut
import GoalPlanning.Proofs.CheapestFirst
import GoalPlanning.Proofs.Completeness
import GoalPlanning.Proofs.ConsistentEstimate
import GoalPlanning.Proofs.CutText
import GoalPlanning.Proofs.DominatedActions
import GoalPlanning.Proofs.Dot.BlankLabels
import GoalPlanning.Proofs.Dot.Rows
import GoalPlanning.Proofs.Dot.Scanning
import GoalPlanning.Proofs.DrawnChain
import GoalPlanning.Proofs.DrawnText
import GoalPlanning.Proofs.Effort
import GoalPlanning.Proofs.Endings
import GoalPlanning.Proofs.ExpansionOrder
import GoalPlanning.Proofs.FinishedDrafts
import GoalPlanning.Proofs.LastWriter
import GoalPlanning.Proofs.LeastOpenEntry
import GoalPlanning.Proofs.Lineage
import GoalPlanning.Proofs.MoreFacts
import GoalPlanning.Proofs.MoreMeans
import GoalPlanning.Proofs.Optimality
import GoalPlanning.Proofs.PlanCost
import GoalPlanning.Proofs.Renaming
import GoalPlanning.Proofs.Replanning
import GoalPlanning.Proofs.ResidualGoals
import GoalPlanning.Proofs.Search.Arena
import GoalPlanning.Proofs.Search.Budgets
import GoalPlanning.Proofs.Search.Exploration
import GoalPlanning.Proofs.Search.FrontierOrder
import GoalPlanning.Proofs.Search.Ledger
import GoalPlanning.Proofs.Search.Lockstep
import GoalPlanning.Proofs.Search.QueuedRuns
import GoalPlanning.Proofs.Search.Queues
import GoalPlanning.Proofs.Search.Reachable
import GoalPlanning.Proofs.Search.Renumbering
import GoalPlanning.Proofs.Search.Reopening
import GoalPlanning.Proofs.Search.Termination
import GoalPlanning.Proofs.Solutions
import GoalPlanning.Proofs.Soundness
import GoalPlanning.Proofs.State.CommonExtensions
import GoalPlanning.Proofs.State.Histories
import GoalPlanning.Proofs.State.MissingFacts
import GoalPlanning.Proofs.StoredNumbers
import GoalPlanning.Proofs.Truncation
import GoalPlanning.Proofs.UnmentionedFacts
import GoalPlanning.Proofs.UnmetConditions
import GoalPlanning.Proofs.UnmetEstimate
import GoalPlanning.Proofs.WeakestPrecondition
import GoalPlanning.Regression
import GoalPlanning.Search.Basic
import GoalPlanning.Search.Frontier
import GoalPlanning.Search.Node
import GoalPlanning.Search.Run
import GoalPlanning.Search.Trace
import GoalPlanning.Simulation
import GoalPlanning.State.Basic
import GoalPlanning.State.Lemmas
import GoalPlanning.State.Order
import GoalPlanning.Value
