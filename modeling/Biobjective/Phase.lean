import Biobjective.Config
import Biobjective.Fault
import Biobjective.Frontier
import Biobjective.Session

/-!
# Phases

A phase of the search is a session that also carries its `Progress`, the
frontier and the count of the work done, and that may be cut short. A `Cut`
ends the phase at once; the progress made up to it is kept.

`Phase.demand` says what an answer means to a phase that needs an optimum, and
`Phase.checkTime` cuts a phase whose time is over.
-/

namespace Biobjective

inductive Status where
  | completed
  | partly
deriving DecidableEq

namespace Status

def isPartial : Status → Bool
  | .completed => false
  | .partly => true

/-- Two phases together are complete if both are. -/
def and : Status → Status → Status
  | .completed, .completed => .completed
  | _, _ => .partly

@[simp] theorem and_eq_completed_iff {s t : Status} :
    s.and t = completed ↔ s = completed ∧ t = completed := by
  cases s <;> cases t <;> simp [and]

theorem and_comm (s t : Status) : s.and t = t.and s := by
  cases s <;> cases t <;> rfl

theorem and_assoc (s t u : Status) : (s.and t).and u = s.and (t.and u) := by
  cases s <;> cases t <;> cases u <;> rfl

def name : Status → String
  | .completed => "Completed"
  | .partly => "Partial"

end Status

/-- The work that solves took. -/
structure Work where
  calls : Nat := 0
  nodes : Nat := 0
deriving DecidableEq

/-- One more than the largest number of nodes that can be counted. -/
def Work.nodeBound : Nat := UInt64.size

/-- Counts a solve, unless its nodes do not fit the counter any more. -/
def Work.record? (w : Work) (nodes : Nat) : Option Work :=
  if w.nodes + nodes < nodeBound then some ⟨w.calls + 1, w.nodes + nodes⟩ else none

theorem Work.record?_eq_some_iff {w v : Work} {nodes : Nat} :
    w.record? nodes = some v ↔
      w.nodes + nodes < nodeBound ∧ v = ⟨w.calls + 1, w.nodes + nodes⟩ := by
  by_cases h : w.nodes + nodes < nodeBound <;> simp [record?, h, eq_comm]

structure Progress (K : Type) where
  frontier : Frontier K
  work : Work := {}

/-- Why a phase ended before its time. -/
inductive Cut where
  | timeout
  | infeasible (stage : Stage)
  | overflow
  | tooManyVariables
  | outOfFuel
deriving DecidableEq

/-- A part of the search. -/
def Phase (K α : Type) : Type := Progress K → Session K (Except Cut α × Progress K)

namespace Phase

variable {K α β : Type}

/-- The phase that does nothing. -/
def pure (a : α) : Phase K α := fun p => .done (.ok a, p)

/-- Goes on with another phase unless the first one was cut. -/
def bind (x : Phase K α) (f : α → Phase K β) : Phase K β := fun p =>
  (x p).bind fun
    | (.ok a, p) => f a p
    | (.error cut, p) => .done (.error cut, p)

instance : Monad (Phase K) where
  pure := pure
  bind := bind

theorem bind_def (x : Phase K α) (f : α → Phase K β) (p : Progress K) :
    (x >>= f) p = (x p).bind fun r =>
      match r with
      | (.ok a, p) => f a p
      | (.error cut, p) => .done (.error cut, p) := rfl

def cut (c : Cut) : Phase K α := fun p => .done (.error c, p)

def tell (d : Directive K) : Phase K Unit := fun p => .tell d (.done (.ok (), p))

def solve : Phase K (Answer K) := fun p =>
  .solve fun answer =>
    match p.work.record? answer.nodes with
    | some work => .done (.ok answer, { p with work })
    | none => .done (.error .overflow, p)

/-- The time since the session began. -/
def elapsed : Phase K Duration := fun p => .clock fun time => .done (.ok time, p)

/-- The time limit has been reached. -/
def isOver (limit : Duration) : Phase K Bool := do
  let time ← elapsed
  return decide (limit ≤ time)

/-- Cuts the phase if the time limit has been reached. -/
def checkTime (limit : Duration) : Phase K Unit := do
  if ← isOver limit then cut .timeout

def frontier : Phase K (Frontier K) := fun p => .done (.ok p.frontier, p)

def modifyFrontier (f : Frontier K → Frontier K) : Phase K Unit := fun p =>
  .done (.ok (), { p with frontier := f p.frontier })

/-- The optimum of an answer. An infeasible answer is fatal at this stage, and
an oracle that gave up cuts the phase. -/
def demand (stage : Stage) : Answer K → Phase K (Optimum K)
  | .optimal o => pure o
  | .infeasible => cut (.infeasible stage)
  | .timedOut _ => cut .timeout

end Phase

end Biobjective
