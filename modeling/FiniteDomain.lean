import FiniteDomain.Fault
import FiniteDomain.Word
import FiniteDomain.Trail.Basic
import FiniteDomain.Trail.SparseSet
import FiniteDomain.Verdict
import FiniteDomain.Store.Basic
import FiniteDomain.Store.Path
import FiniteDomain.Store.Domain
import FiniteDomain.AllDifferent.Marks
import FiniteDomain.AllDifferent.Worklist
import FiniteDomain.AllDifferent.ValueGraph
import FiniteDomain.AllDifferent.ValueGraph.Build
import FiniteDomain.AllDifferent.ForwardCheck
import FiniteDomain.AllDifferent.Matching
import FiniteDomain.AllDifferent.Components
import FiniteDomain.AllDifferent.Reach
import FiniteDomain.Model.Propagator
import FiniteDomain.Model.Listeners
import FiniteDomain.Model.Basic
import FiniteDomain.Model.Fixpoint
import FiniteDomain.AllDifferent.Propagation
import FiniteDomain.AllDifferent.Install
import FiniteDomain.Script
import FiniteDomain.Search
import FiniteDomain.Proofs.Loops
import FiniteDomain.Proofs.Trail.Frames
import FiniteDomain.Proofs.Trail.Members
import FiniteDomain.Proofs.Trail.Questions
import FiniteDomain.Proofs.Trail.Narrowing
import FiniteDomain.Proofs.Trail.Levels
import FiniteDomain.Proofs.Trail.Sessions
import FiniteDomain.Proofs.Trail.Restoration
import FiniteDomain.Proofs.Model.Recording
import FiniteDomain.Proofs.Model.Wakeups
import FiniteDomain.Proofs.Store.Paths
import FiniteDomain.Proofs.Store.Domains
import FiniteDomain.Proofs.Store.Narrowing
import FiniteDomain.Proofs.Store.Views
import FiniteDomain.Proofs.Store.Levels
import FiniteDomain.Proofs.AllDifferent.Snapshot
import FiniteDomain.Proofs.AllDifferent.Choices
import FiniteDomain.Proofs.AllDifferent.Moves
import FiniteDomain.Proofs.AllDifferent.Flips
import FiniteDomain.Proofs.AllDifferent.Graph
import FiniteDomain.Proofs.AllDifferent.Reading
import FiniteDomain.Proofs.AllDifferent.Changing
import FiniteDomain.Proofs.AllDifferent.Anchors
import FiniteDomain.Proofs.AllDifferent.Build
import FiniteDomain.Proofs.AllDifferent.ForwardCheck
import FiniteDomain.Proofs.AllDifferent.Marks
import FiniteDomain.Proofs.AllDifferent.Matching
import FiniteDomain.Proofs.AllDifferent.Reach
import FiniteDomain.Proofs.AllDifferent.DepthFirst
import FiniteDomain.Proofs.AllDifferent.Components
import FiniteDomain.Proofs.Model.Listening
import FiniteDomain.Proofs.Store.Reached
import FiniteDomain.Proofs.AllDifferent.Invariant
import FiniteDomain.Proofs.AllDifferent.Filtering
import FiniteDomain.Proofs.AllDifferent.Deductions
import FiniteDomain.Proofs.AllDifferent.Propagation
import FiniteDomain.Proofs.AllDifferent.Creation
import FiniteDomain.Proofs.AllDifferent.Guard
import FiniteDomain.Proofs.Model.Counters
import FiniteDomain.Proofs.AllDifferent.Constraints
import FiniteDomain.Proofs.AllDifferent.Solutions
import FiniteDomain.Proofs.AllDifferent.Attachment
import FiniteDomain.Proofs.AllDifferent.Discipline
import FiniteDomain.Proofs.Store.Weights
import FiniteDomain.Proofs.Store.Twins
import FiniteDomain.Proofs.Model.Rounds
import FiniteDomain.Proofs.AllDifferent.Settling
import FiniteDomain.Proofs.AllDifferent.Driving
import FiniteDomain.Proofs.AllDifferent.Room
import FiniteDomain.Proofs.AllDifferent.Consistency
import FiniteDomain.Proofs.AllDifferent.FirstMatching
import FiniteDomain.Proofs.AllDifferent.Hints
import FiniteDomain.Proofs.AllDifferent.Safety
import FiniteDomain.Proofs.Store.Events
import FiniteDomain.Proofs.Model.Reports
import FiniteDomain.Proofs.Model.Resuming
import FiniteDomain.Proofs.Model.Decisions
import FiniteDomain.Proofs.Model.Searching
import FiniteDomain.Proofs.AllDifferent.Nodes
import FiniteDomain.Proofs.AllDifferent.Backtracking
import FiniteDomain.Proofs.AllDifferent.Enumeration
import FiniteDomain.Proofs.AllDifferent.Twins
import FiniteDomain.Proofs.AllDifferent.Confluence
import FiniteDomain.Proofs.Model.Tame
import FiniteDomain.Proofs.AllDifferent.Tame
import FiniteDomain.Proofs.Script
import FiniteDomain.Proofs.Model.Restoration
import FiniteDomain.Proofs.Model.Traces
import FiniteDomain.Proofs.Model.GivenBack
import FiniteDomain.Proofs.Model.Courses
import FiniteDomain.Proofs.AllDifferent.Augmenting
import FiniteDomain.Proofs.AllDifferent.Pruning
import FiniteDomain.Proofs.AllDifferent.Sweeps
import FiniteDomain.Proofs.AllDifferent.Sweeping
import FiniteDomain.Proofs.Store.Returns
import FiniteDomain.Proofs.Model.Steady
import FiniteDomain.Proofs.Model.Ending
import FiniteDomain.Proofs.AllDifferent.Restarts
import FiniteDomain.Proofs.Termination
import FiniteDomain.Proofs.AllDifferent.Passes
import FiniteDomain.Proofs.AllDifferent.Reuse
import FiniteDomain.Proofs.AllDifferent.Upkeep
import FiniteDomain.Proofs.AllDifferent.Exhaustion
import FiniteDomain.Proofs.Trail.SetLaws
import FiniteDomain.Proofs.Store.Calls
import FiniteDomain.Proofs.Store.Affine
import FiniteDomain.Proofs.Store.Changes
import FiniteDomain.Proofs.AllDifferent.Advice
import FiniteDomain.Proofs.AllDifferent.Hosting
import FiniteDomain.Proofs.AllDifferent.Conduct
import FiniteDomain.Proofs.AllDifferent.Guidance
import FiniteDomain.Proofs.Model.Checks
