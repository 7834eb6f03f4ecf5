import Biobjective.Files
import Biobjective.Frontier
import Biobjective.Statistics

/-!
# Reports

A report is a record of one run in tab-separated lines: the names of eight
statistics, their values, a marker, and a line for each retained solution with
its two objective values and its assignment. Records are appended to a file one
after the other.
-/

namespace Biobjective

/-- How the numbers of a report are written. -/
structure ReportFormat (K : Type) where
  scalar : K → String
  span : Duration → String

/-- Numbers in a report have the fewest digits that read back, never an
exponent, and no point if they are whole. Of two nearest ones the larger one is
taken. -/
def ReportFormat.plainStyle : Decimal.Style := ⟨.up, false, none⟩

/-- The format of reports on doubles. Times are in seconds. -/
def ReportFormat.plain : ReportFormat Float :=
  { scalar := Decimal.ofFloat plainStyle
    span := fun d => Decimal.ofFloat plainStyle d.seconds }

namespace Report

def header : String :=
  "NumVar\tTotalTime\tPhaseOneTime\tPhaseTwoTime\tBranchingNodes\tNumberOfSolutions\tPhaseOneSol\tPhaseTwoSol"

/-- The line before the solutions. -/
def marker : String := "Frontier and corresponding solution"

variable {K : Type}

def statisticsFields (fmt : ReportFormat K) (s : Statistics) : List String :=
  [toString s.dimension, fmt.span s.totalTime, fmt.span s.phaseOneTime, fmt.span s.phaseTwoTime,
    toString s.branchingNodes, toString s.totalSolutions, toString s.phaseOneSolutions,
    toString s.phaseTwoSolutions]

def solutionFields (fmt : ReportFormat K) (s : Solution K) : List String :=
  fmt.scalar s.z1 :: fmt.scalar s.z2 :: s.decisions.map fmt.scalar

def line (fields : List String) : String := "\t".intercalate fields

def lines (fmt : ReportFormat K) (s : Statistics) (f : Frontier K) : List String :=
  header :: line (statisticsFields fmt s) :: marker ::
    f.all.map fun solution => line (solutionFields fmt solution)

/-- The text of a record, each line ended. -/
def text (fmt : ReportFormat K) (s : Statistics) (f : Frontier K) : String :=
  String.join ((lines fmt s f).map (· ++ "\n"))

/-- Appends a record to a file. -/
def persist (fmt : ReportFormat K) (files : Files) (path : String) (s : Statistics)
    (f : Frontier K) : Except Fault Files :=
  match files.append path (text fmt s f) with
  | .ok files => .ok files
  | .error cause => .error (.unwritten path cause)

end Report

end Biobjective
