import Biobjective.Duration
import Biobjective.Scalar

/-!
# Configurations

What a run can be told in advance: tolerances, the strategy of the second
phase, its order of work, limits, and where the results go.
-/

namespace Biobjective

structure Tolerances (K : Type) where
  dominance : K
  /-- Ties of the first phase: the cap of an anchor's first objective, and how
  far below a chord a point has to lie. -/
  tie : K
deriving BEq, DecidableEq

inductive Strategy where
  | splitting
  | ranking
deriving DecidableEq

def Strategy.name : Strategy → String
  | .splitting => "RegionSplit"
  | .ranking => "Ranking"

/-- Which of the waiting boxes is taken next. -/
inductive QueueOrder where
  | fifo
  | lifo
deriving DecidableEq

def QueueOrder.name : QueueOrder → String
  | .fifo => "Fifo"
  | .lifo => "Lifo"

structure Config (K : Type) where
  timeLimit : Duration := .ofParts 3600 0
  printProgress : Bool := false
  strategy : Strategy := .splitting
  queueOrder : QueueOrder := .fifo
  output? : Option String := none
  tolerances : Tolerances K
  /-- One more than the number of chords that the first phase may examine. -/
  maxChords : Nat := 1000
  keepDecisions : Bool := true
deriving DecidableEq

/-- The tolerances that suit objective values in whole numbers. -/
def Tolerances.standard : Tolerances Float := ⟨0.1, 0.001⟩

/-- The configuration that is used where nothing else is asked for. -/
def Config.standard : Config Float := { tolerances := .standard }

namespace Config

variable {K : Type}

def withTimeLimit (c : Config K) (limit : Duration) : Config K := { c with timeLimit := limit }

def withProgress (c : Config K) (on : Bool) : Config K := { c with printProgress := on }

def ranking (c : Config K) : Config K := { c with strategy := .ranking }

/-- Splits the box that came last. -/
def depthFirst (c : Config K) : Config K := { c with queueOrder := .lifo }

def withOutput (c : Config K) (path : String) : Config K := { c with output? := some path }

end Config

end Biobjective
