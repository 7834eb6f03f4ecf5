import Biobjective.Ranking
import Biobjective.Report
import Biobjective.Splitting
import Biobjective.Supported

/-!
# The two-phase method

A run finds the supported points, then fills the gaps between them by the
strategy of its configuration, under one clock for both phases. It concludes
with the frontier, its status and its statistics, or it fails. A run that was
cut short by time still concludes.

A `Method` is a configuration with the state and the statistics of its last
run.
-/

namespace Biobjective

structure Conclusion (K : Type) where
  status : Status
  frontier : Frontier K
  statistics : Statistics

/-- The failure that a cut amounts to. -/
def Cut.failure : Cut → Failure
  | .infeasible stage => .fault (.infeasible stage)
  | .overflow => .crash .addOverflow
  | .tooManyVariables => .crash .capacityOverflow
  | .timeout => .outOfFuel
  | .outOfFuel => .outOfFuel

inductive MethodState where
  | init
  | done
  | failed
deriving DecidableEq

def MethodState.name : MethodState → String
  | .init => "Init"
  | .done => "Done"
  | .failed => "Failed"

/-- A number of solves for one gap that no run reaches whose solves have nodes to
count. -/
def ampleFuel : Nat := Nat.pow 2 66

namespace Run

variable {K : Type} [Scalar K]

/-- The second phase, on an oracle with a number of variables. -/
def secondPhase (cfg : Config K) (dimension fuel : Nat) : Phase K Status :=
  match cfg.strategy with
  | .splitting => Splitting.phase cfg fuel
  | .ranking => Ranking.phase cfg dimension fuel

def statistics (dimension phaseOneSolutions : Nat) (phaseOneTime totalTime : Duration)
    (p : Progress K) : Statistics :=
  { dimension
    branchingNodes := p.work.nodes
    oracleCalls := p.work.calls
    phaseOneSolutions
    phaseTwoSolutions := p.frontier.all.countP fun s => !s.supported
    totalSolutions := p.frontier.size
    phaseOneTime
    phaseTwoTime := totalTime.since phaseOneTime
    totalTime }

def phases (cfg : Config K) (dimension fuel : Nat) : Phase K (Status × Statistics) := do
  let first ← Supported.phase cfg
  let phaseOneTime ← Phase.elapsed
  let phaseOneSolutions := (← Phase.frontier).size
  let second ← secondPhase cfg dimension fuel
  let totalTime ← Phase.elapsed
  fun p =>
    .done (.ok (first.and second,
      statistics dimension phaseOneSolutions phaseOneTime totalTime p), p)

/-- A run on an oracle with a number of variables, from an empty frontier. -/
def session (cfg : Config K) (dimension fuel : Nat) :
    Session K (Except Failure (Conclusion K)) :=
  if dimension = 0 then .done (.error (.fault (.invalid .noDecisions)))
  else
    (phases cfg dimension fuel { frontier := .empty cfg.tolerances.dominance }).bind fun
      | (.ok (status, statistics), p) =>
        .done (.ok { status, frontier := p.frontier, statistics })
      | (.error cut, _) => .done (.error cut.failure)

end Run

/-- A configuration with the state and the statistics of its last run. -/
structure Method (K : Type) where
  config : Config K
  state : MethodState := .init
  statistics : Statistics := {}

structure Ran (K σ : Type) where
  method : Method K
  result : Except Failure (Conclusion K)
  /-- Why the results were not written, if they should have been and were
  not. -/
  persistFault? : Option Fault
  world : World K σ
  files : Files

namespace Method

variable {K σ : Type} [Scalar K]

def after (m : Method K) : Except Failure (Conclusion K) → Method K
  | .ok c => { m with state := .done, statistics := c.statistics }
  | .error _ => { m with state := .failed, statistics := {} }

/-- Runs the method on an oracle and appends the results to its output. -/
def run (m : Method K) (fmt : ReportFormat K) (o : Oracle K σ) (clock : Clock) (fuel : Nat)
    (oracle : σ) (files : Files) : Ran K σ :=
  let (result, world) := (Run.session m.config o.dimension fuel).exec o clock (.start oracle)
  let method := m.after result
  match result, m.config.output? with
  | .ok c, some path =>
    match Report.persist fmt files path c.statistics c.frontier with
    | .ok files => { method, result, persistFault? := none, world, files }
    | .error fault => { method, result, persistFault? := some fault, world, files }
  | _, _ => { method, result, persistFault? := none, world, files }

end Method

end Biobjective
