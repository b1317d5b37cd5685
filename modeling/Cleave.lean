import Cleave.Backbone.Engine
import Cleave.Backbone.Implied
import Cleave.Backbone.Probing
import Cleave.Backbone.Procedure
import Cleave.Backbone.Renaming
import Cleave.Clause
import Cleave.Clause.Membership
import Cleave.Clause.Store
import Cleave.Component
import Cleave.Component.Decompose
import Cleave.Counter
import Cleave.Decimal.Nearest
import Cleave.Decimal.Shortest
import Cleave.Decimal.Text
import Cleave.Equivalence
import Cleave.Fault
import Cleave.Formula
import Cleave.Formula.Reader
import Cleave.Graph.Basic
import Cleave.Graph.Exchange
import Cleave.Graph.MinFill
import Cleave.Graph.Primal
import Cleave.Graph.StaticOrder
import Cleave.Graph.TreeDecomposition
import Cleave.Graph.VarOrder
import Cleave.Invocation
import Cleave.Literal
import Cleave.Main
import Cleave.Marks
import Cleave.Model
import Cleave.Options
import Cleave.Proofs.Backtracking
import Cleave.Proofs.Branching
import Cleave.Proofs.Forgetting
import Cleave.Proofs.Inserting
import Cleave.Proofs.Indexing
import Cleave.Proofs.Invariant
import Cleave.Proofs.Learning
import Cleave.Proofs.Meaning
import Cleave.Proofs.Models
import Cleave.Proofs.Propagation
import Cleave.Proofs.Resolution
import Cleave.Proofs.Search
import Cleave.Proofs.Storing
import Cleave.Proofs.Tables
import Cleave.Proofs.TrailLaws
import Cleave.Proofs.Watching
import Cleave.Proofs.Within
import Cleave.Report
import Cleave.Solver.Activity
import Cleave.Solver.Branching
import Cleave.Solver.Forgetting
import Cleave.Solver.Learning
import Cleave.Solver.Propagation
import Cleave.Solver.Search
import Cleave.Solver.State
import Cleave.Table
import Cleave.Text.Blank
import Cleave.Text.Whole
import Cleave.Tool
import Cleave.Trail
import Cleave.VarHeap
import Cleave.Proofs.Assumptions
import Cleave.Proofs.Driving
import Cleave.Proofs.Equivalence
import Cleave.Proofs.Orderly
import Cleave.Proofs.FoundModels
import Cleave.Proofs.Reachable
import Cleave.Proofs.Certificates
import Cleave.Proofs.RootRefutation
import Cleave.Proofs.Verdict
import Cleave.Proofs.Elimination
import Cleave.Proofs.Confinement
import Cleave.Proofs.Lease
import Cleave.Proofs.UnitClosure
import Cleave.Proofs.Flood
import Cleave.Proofs.Decomposition
import Cleave.Proofs.Splitting
import Cleave.Proofs.StaticOrders
import Cleave.Proofs.Reading
import Cleave.Proofs.RoundTrip
import Cleave.Proofs.ExactEngine
import Cleave.Proofs.OpenPart
import Cleave.Proofs.ExternalBackbone
import Cleave.Proofs.Freedom
import Cleave.Proofs.ClauseSection
import Cleave.Proofs.BrokenSource
import Cleave.Proofs.SolverReading
import Cleave.Proofs.HeapMembers
import Cleave.Proofs.TreeChecks
import Cleave.Proofs.EliminationBags
import Cleave.Proofs.MinFill
import Cleave.Proofs.SimpleGraphs
import Cleave.Proofs.WatchLists
import Cleave.Proofs.OwnClauses
import Cleave.Proofs.AssertingClauses
import Cleave.Proofs.Enclosure
import Cleave.Proofs.Retraction
import Cleave.Proofs.ScopeExit
import Cleave.Proofs.HeapOrder
import Cleave.Proofs.GreedyElimination
import Cleave.Proofs.Scores
import Cleave.Proofs.Upkeep
import Cleave.Proofs.Reduction
import Cleave.Proofs.Definedness
import Cleave.Proofs.Schedules
import Cleave.Proofs.Turns
import Cleave.Proofs.Termination
import Cleave.Proofs.SearchBounds
import Cleave.Proofs.ProbeLog
import Cleave.Proofs.ProbeGains
import Cleave.Proofs.ProbingProgress
import Cleave.Proofs.DisjointSets
import Cleave.Proofs.PrimalRows
import Cleave.Proofs.CoOccurrence
import Cleave.Proofs.BagForests
import Cleave.Proofs.BagRemoval
import Cleave.Proofs.LeafRemoval
import Cleave.Proofs.TrailHistory
import Cleave.Proofs.MembershipLists
import Cleave.Proofs.Exchange
import Cleave.Proofs.ModelSessions
import Cleave.Proofs.Congruence
import Cleave.Proofs.HeapHistory
import Cleave.Proofs.ClauseRecord
import Cleave.Proofs.ErrorSpans
import Cleave.Proofs.ErrorPlaces
import Cleave.Proofs.MarkHistory
