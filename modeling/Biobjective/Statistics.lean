import Biobjective.Decimal.Basic
import Biobjective.Duration

/-!
# Statistics

The counters and times of a run, and their display.
-/

namespace Biobjective

structure Statistics where
  dimension : Nat := 0
  branchingNodes : Nat := 0
  oracleCalls : Nat := 0
  phaseOneSolutions : Nat := 0
  /-- The number of solutions that are not supported. -/
  phaseTwoSolutions : Nat := 0
  totalSolutions : Nat := 0
  phaseOneTime : Duration := .zero
  phaseTwoTime : Duration := .zero
  totalTime : Duration := .zero
deriving DecidableEq

namespace Statistics

/-- Displayed times are in seconds with three places. -/
def displayedTime (d : Duration) : String := Decimal.fixed 3 d.seconds

def lines (s : Statistics) : List String :=
  ["Run Statistics:",
    s!"  Variables: {s.dimension}",
    s!"  Branching Nodes: {s.branchingNodes}",
    s!"  Oracle Calls: {s.oracleCalls}",
    s!"  Phase One Solutions: {s.phaseOneSolutions}",
    s!"  Phase Two Solutions: {s.phaseTwoSolutions}",
    s!"  Total Solutions: {s.totalSolutions}",
    s!"  Phase One Time (secs): {displayedTime s.phaseOneTime}",
    s!"  Phase Two Time (secs): {displayedTime s.phaseTwoTime}",
    s!"  Total Time (secs): {displayedTime s.totalTime}"]

/-- The display, each line ended. -/
def display (s : Statistics) : String := String.join (s.lines.map (· ++ "\n"))

end Statistics

end Biobjective
