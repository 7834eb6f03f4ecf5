import Biobjective.Scalar
import Biobjective.Solution
import Biobjective.Frontier
import Biobjective.Oracle
import Biobjective.Fault
import Biobjective.Program
import Biobjective.Oracle.Enumeration
import Biobjective.Oracle.Replay
import Biobjective.Duration
import Biobjective.Session
import Biobjective.Config
import Biobjective.Phase
import Biobjective.Supported
import Biobjective.Region
import Biobjective.Splitting
import Biobjective.Ranking
import Biobjective.Decimal.Binary64
import Biobjective.Decimal.Basic
import Biobjective.Decimal.Digit
import Biobjective.Decimal.Read
import Biobjective.Path
import Biobjective.Path.Pattern
import Biobjective.Files
import Biobjective.Statistics
import Biobjective.Report
import Biobjective.Method
import Biobjective.Random.ChaCha
import Biobjective.Random.Uniform
import Biobjective.Knapsack
import Biobjective.Knapsack.Random
import Biobjective.Table.Field
import Biobjective.Table.Kind
import Biobjective.Table
import Biobjective.Knapsack.Table
import Biobjective.Command.Arguments
import Biobjective.Provenance
import Biobjective.Host
import Biobjective.Sources
import Biobjective.Command.Tools
import Biobjective.Command
import Biobjective.Main
import Biobjective.Proofs.WholeNumber
import Biobjective.Proofs.AnchorSearch
import Biobjective.Proofs.Assignment
import Biobjective.Proofs.Gap
import Biobjective.Proofs.GrayWalk
import Biobjective.Proofs.SealedRegion
import Biobjective.Proofs.Solve
import Biobjective.Proofs.SoundFrontier
import Biobjective.Proofs.Span
import Biobjective.Proofs.SplittingPhase
import Biobjective.Proofs.Staircase
import Biobjective.Proofs.NadirCutoff
import Biobjective.Proofs.RankingPhase
import Biobjective.Proofs.Reference
import Biobjective.Proofs.Update
import Biobjective.Proofs.Ensures
import Biobjective.Proofs.SupportedPoint
import Biobjective.Proofs.Question
import Biobjective.Proofs.Chain
import Biobjective.Proofs.Completeness
import Biobjective.Proofs.Dialogue
import Biobjective.Proofs.ExactSolve
import Biobjective.Proofs.RankedAssignments
import Biobjective.Proofs.Exclusion
import Biobjective.Proofs.Literals
import Biobjective.Proofs.FirstPhase
import Biobjective.Proofs.Hull
import Biobjective.Proofs.UpdateOrder
import Biobjective.Proofs.RegionTree
import Biobjective.Proofs.QueueOrder
import Biobjective.Proofs.Deadline
import Biobjective.Proofs.SplittingDeadline
import Biobjective.Proofs.RankingDeadline
import Biobjective.Proofs.Conduct
import Biobjective.Proofs.CallCount
import Biobjective.Proofs.SupportedKept
import Biobjective.Proofs.FatalError
import Biobjective.Proofs.Release
import Biobjective.Proofs.Rerun
import Biobjective.Proofs.Redaction
import Biobjective.Proofs.NodeLimit
import Biobjective.Proofs.RunHistory
import Biobjective.Proofs.Attestation
import Biobjective.Proofs.AmpleFuel
import Biobjective.Proofs.NodeBudget
import Biobjective.Proofs.KnapsackSubsets
import Biobjective.Proofs.Comparison
import Biobjective.Proofs.CachedNadir
import Biobjective.Proofs.Magnitude
import Biobjective.Proofs.ReportReading
import Biobjective.Proofs.ZeroTolerance
import Biobjective.Proofs.CutProgram
import Biobjective.Proofs.RankingRerun
import Biobjective.Proofs.Insertion
import Biobjective.Proofs.Tolerance
import Biobjective.Proofs.SplittingLoop
import Biobjective.Proofs.Limits
import Biobjective.Proofs.HostedRun
import Biobjective.Proofs.CrashCauses
