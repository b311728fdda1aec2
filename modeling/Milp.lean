import Milp.Number.Tolerance
import Milp.Number.Text
import Milp.Number.Duration
import Milp.Random.Choice
import Milp.Random.Seed
import Milp.Failure
import Milp.Problem.LoadError
import Milp.Problem.Lexeme
import Milp.Problem.Scanner
import Milp.Problem.Builder
import Milp.Problem.Read
import Milp.Problem.Solution
import Milp.Param.Registry
import Milp.Relaxation.Solve
import Milp.Search.Rule
import Milp.Search.Choice
import Milp.Search.Status
import Milp.Search.Statistics
import Milp.Search.Snapshot
import Milp.Search.Settings
import Milp.Search.Node
import Milp.Search.Decision
import Milp.Search.Run
import Milp.Model
import Milp.Control.Channel
import Milp.Episode.Branching
import Milp.Episode.SumBranching
import Milp.Episode.Configuring
import Milp.Episode.PrimalSearch
import Milp.Episode.Environment
import Milp.Episode.Policy
import Milp.Instance.Source
import Milp.Data.Episode
import Milp.Proofs.Number.Exact
import Milp.Proofs.Number.Nearest
import Milp.Proofs.Number.Packing
import Milp.Proofs.Number.Faithful
import Milp.Proofs.Number.Double
import Milp.Proofs.Number.Product
import Milp.Proofs.Number.Quotient
import Milp.Proofs.Number.Integers
import Milp.Proofs.Number.Duration
import Milp.Proofs.Number.Optimism
import Milp.Proofs.Param.Cast
import Milp.Proofs.Param.Configured
import Milp.Proofs.Param.Operations
import Milp.Proofs.Param.Changed
import Milp.Proofs.Problem.Words
import Milp.Proofs.Problem.Scanning
import Milp.Proofs.Problem.Format
import Milp.Proofs.Problem.Readers
import Milp.Proofs.Problem.Loading
import Milp.Proofs.Problem.Plain
import Milp.Proofs.Problem.Sections
import Milp.Proofs.Problem.Lines
import Milp.Proofs.Problem.Counts
import Milp.Proofs.Problem.Region
import Milp.Proofs.Problem.IntegralBounds
import Milp.Proofs.Problem.Domains
import Milp.Proofs.Problem.Merging
import Milp.Proofs.Problem.Building
import Milp.Proofs.Problem.Proper
import Milp.Proofs.Random.Order
import Milp.Proofs.Random.Range
import Milp.Proofs.Random.Sampling
import Milp.Proofs.Random.Exponential
import Milp.Proofs.Random.Distinct
import Milp.Proofs.Instance.Passes
import Milp.Proofs.Instance.Reseeding
import Milp.Proofs.Search.Runs
import Milp.Proofs.Search.Callback
import Milp.Proofs.Search.Acts
import Milp.Proofs.Search.Selection
import Milp.Proofs.Search.Preference
import Milp.Proofs.Search.Nesting
import Milp.Proofs.Relaxation.Answer
import Milp.Proofs.Relaxation.Pivot
import Milp.Proofs.Relaxation.Optimality
import Milp.Proofs.Relaxation.Phases
import Milp.Proofs.Relaxation.FirstTableau
import Milp.Proofs.Relaxation.Shift
import Milp.Proofs.Relaxation.Correctness
import Milp.Proofs.Relaxation.Values
import Milp.Proofs.Relaxation.Within
import Milp.Proofs.Relaxation.Course
import Milp.Proofs.Relaxation.Cycling
import Milp.Proofs.Relaxation.Equivalence
import Milp.Proofs.Relaxation.Invariant
import Milp.Proofs.Search.Ranking
import Milp.Proofs.Search.Coverage
import Milp.Proofs.Search.Soundness
import Milp.Proofs.Search.Incumbent
import Milp.Proofs.Search.Rounding
import Milp.Proofs.Search.Room
import Milp.Proofs.Search.Unrounded
import Milp.Proofs.Search.DualBound
import Milp.Proofs.Search.Improvement
import Milp.Proofs.Search.Branchable
import Milp.Proofs.Search.Balance
import Milp.Proofs.Search.Passive
import Milp.Proofs.Search.Finite
import Milp.Proofs.Search.Partition
import Milp.Proofs.Search.Descent
import Milp.Proofs.Search.Limits
import Milp.Proofs.Search.Outcome
import Milp.Proofs.Search.Stack
import Milp.Proofs.Search.Settings
import Milp.Proofs.Search.Opening
import Milp.Proofs.Search.Closing
import Milp.Proofs.Search.InHand
import Milp.Proofs.Search.Trials
import Milp.Proofs.Search.Candidates
import Milp.Proofs.Search.Numbering
import Milp.Control.Interleaving
import Milp.Proofs.Control.Coherence
import Milp.Proofs.Control.Invariant
import Milp.Proofs.Control.Calls
import Milp.Proofs.Control.Alternation
import Milp.Proofs.Control.Delivery
import Milp.Proofs.Control.Progress
import Milp.Proofs.Control.Strategy
import Milp.Proofs.Control.Mimicry
import Milp.Proofs.Control.Following
import Milp.Proofs.Control.Refinement
import Milp.Proofs.Control.Termination
import Milp.Proofs.Control.Acceptance
import Milp.Proofs.Control.Handover
import Milp.Proofs.Control.Upholding
import Milp.Proofs.Control.Arrival
import Milp.Proofs.Control.Work
import Milp.Proofs.Episode.Acceptance
import Milp.Proofs.Episode.Refusal
import Milp.Proofs.Episode.Branching
import Milp.Proofs.Episode.SumBranching
import Milp.Proofs.Episode.PrimalSearch
import Milp.Proofs.Episode.Agreement
import Milp.Proofs.Episode.Rejection
import Milp.Proofs.Episode.Ownership
import Milp.Proofs.Episode.Handback
import Milp.Proofs.Episode.Upholding
import Milp.Proofs.Episode.Calls
import Milp.Proofs.Episode.Work
import Milp.Proofs.Episode.Limits
import Milp.Proofs.Episode.Offers
import Milp.Proofs.Episode.Arrival
import Milp.Proofs.Episode.Trials
import Milp.Proofs.Episode.History
import Milp.Proofs.Episode.Forgetting
import Milp.Proofs.Episode.Phases
import Milp.Proofs.Episode.Telescoping
