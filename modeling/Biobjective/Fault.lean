import Biobjective.Oracle

/-!
# Faults

What can be wrong with an instance, a run or a file, each as a cause with the
numbers that belong to it, and the wording of each cause.

A `Crash` is no fault of the input but a limit of what can be held or reached:
the operation has no answer at all.
-/

namespace Biobjective

inductive InstanceFault where
  | noVariables
  | tooManyVariables (dimension limit : Nat)
  | objectiveLengths (first second : Nat)
  | rowLength (row coefs dimension : Nat)
  | noItems
  | itemCounts (weights profits1 profits2 : Nat)
  | negativeCapacity (capacity : Int)
  | noDecisions
deriving DecidableEq

def InstanceFault.message : InstanceFault → String
  | .noVariables => "program has no variables"
  | .tooManyVariables dimension limit =>
    s!"{dimension} variables exceed the enumeration limit of {limit}"
  | .objectiveLengths first second =>
    s!"objective rows differ in length ({first} vs {second})"
  | .rowLength row coefs dimension =>
    s!"constraint {row} has {coefs} coefficients, expected {dimension}"
  | .noItems => "knapsack has no items"
  | .itemCounts weights profits1 profits2 =>
    s!"{weights} weights but {profits1} and {profits2} profits"
  | .negativeCapacity capacity => s!"negative capacity {capacity}"
  | .noDecisions => "oracle exposes no decision variables"

/-- The step of the first phase at which an infeasible answer is fatal. -/
inductive Stage where
  | upperLeftAnchor
  | lowerRightAnchor
  | chord
deriving DecidableEq

def Stage.name : Stage → String
  | .upperLeftAnchor => "upper-left anchor"
  | .lowerRightAnchor => "lower-right anchor"
  | .chord => "NISE iteration"

inductive FileFault where
  | notFound
  | notADirectory
  | isADirectory
  | noSpace
  | nameTooLong
  | zeroCharacter
  | other (message : String)
deriving DecidableEq

def FileFault.message : FileFault → String
  | .notFound => "No such file or directory (os error 2)"
  | .notADirectory => "Not a directory (os error 20)"
  | .isADirectory => "Is a directory (os error 21)"
  | .noSpace => "No space left on device (os error 28)"
  | .nameTooLong => "File name too long (os error 36)"
  | .zeroCharacter => "file name contained an unexpected NUL byte"
  | .other message => message

inductive Fault where
  | invalid (cause : InstanceFault)
  | infeasible (stage : Stage)
  | unwritten (path : String) (cause : FileFault)
deriving DecidableEq

/-- The detail given for an infeasible answer. -/
def Fault.infeasibleDetail : String := "weighted-sum solve reported infeasible"

def Fault.message : Fault → String
  | .invalid cause => s!"invalid instance: {cause.message}"
  | .infeasible stage => s!"oracle failure during {stage.name}: {infeasibleDetail}"
  | .unwritten path cause => s!"could not write results to {path}: {cause.message}"

/-- A fault with its parts spelled out, for the eyes of a programmer. -/
def Fault.inspect : Fault → String
  | .invalid cause => "InvalidInstance(\"" ++ cause.message ++ "\")"
  | .infeasible stage =>
    let name := match stage with
      | .upperLeftAnchor => "UpperLeftAnchor"
      | .lowerRightAnchor => "LowerRightAnchor"
      | .chord => "Nise"
    "OracleFailure \x7b stage: " ++ name ++ ", detail: \"" ++ infeasibleDetail ++ "\" \x7d"
  | .unwritten path cause =>
    "Persistence \x7b path: \"" ++ path ++ "\", source: \"" ++ cause.message ++ "\" \x7d"

/-- Why an operation has no answer. -/
inductive Crash where
  | addOverflow
  | emptyRange
  | capacityOverflow
  | durationOverflow
  | outOfMemory
  | unprinted (cause : FileFault)
  /-- A path leads to another machine. -/
  | remotePath
  /-- A run was not followed to its end. -/
  | givenUp
deriving DecidableEq

def Crash.message : Crash → String
  | .addOverflow => "attempt to add with overflow"
  | .emptyRange => "cannot sample empty range"
  | .capacityOverflow => "capacity overflow"
  | .durationOverflow => "can not convert float seconds to Duration: value is either too big or NaN"
  | .outOfMemory => "memory allocation failed"
  | .unprinted cause => s!"failed printing to stdout: {cause.message}"
  | .remotePath =>
    "Feature `cloud` must be enabled to use globbing patterns with cloud urls."
  | .givenUp => "the run was given up"

/-- The greatest length of a list of 64-bit numbers that can be held. -/
def maxLength : Nat := Nat.pow 2 60 - 1

inductive Failure where
  | fault (f : Fault)
  | crash (c : Crash)
  | outOfFuel
deriving DecidableEq

end Biobjective
