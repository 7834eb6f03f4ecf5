import Biobjective.Command.Tools
import Biobjective.Oracle.Enumeration
import Biobjective.Provenance

/-!
# The commands

Two commands on bi-objective knapsacks. `Command.solve` computes the frontier by
the two-phase method, prints it, and on request appends it to a file with a
provenance record beside it and compares it with the reference answer.
`Command.brute` prints the reference answer. `Command.demo` solves one random
knapsack.

The order of work is fixed: the time limit is looked at first, then the
knapsack, the run, the print, the record and the comparison. Before lists are
made the host is asked for room: for the numbers of a knapsack and of its
program, for the assignment of each solve, and for the points of the reference
answer.
-/

namespace Biobjective

/-- What a command comes to. It is unfinished if its run is given up for want of
fuel. -/
inductive Outcome where
  | ended (exit : Exit)
  | unfinished
deriving DecidableEq

namespace Command

/-- A step of a command ends with a value or ends the command. -/
abbrev Step (m : Type → Type) (α : Type) : Type := ExceptT Outcome m α

def outcomeOf : Failure → Outcome
  | .fault f => .ended (.refused f.message)
  | .crash c => .ended (.crashed c)
  | .outOfFuel => .unfinished

variable {m : Type → Type} [Monad m] [Host m]

def ask {α : Type} (x : m α) : Step m α := ExceptT.lift x

/-- The value of a result, or the outcome that its failure leads to. -/
def orEnd {ε α : Type} (outcome : ε → Outcome) : Except ε α → Step m α
  | .ok a => pure a
  | .error e => throw (outcome e)

/-- Asks for room for a number of numbers. -/
def hold (count : Nat) : Step m Unit := do
  if !(← ask (Host.reserve count)) then throw (.ended (.crashed .outOfMemory))

def printAll : List String → Step m Unit
  | [] => return ()
  | text :: texts => do
    orEnd (fun fault => .ended (.crashed (.unprinted fault))) (← ask (Host.print text))
    printAll texts

/-- Writes a number of the frontier. -/
def numeral (x : Float) : String := ReportFormat.plain.scalar x

def scanOutcome (path : String) : ScanFault → Outcome
  | .unscanned => .ended (.refused s!"scanning {path}")
  | .unreadable => .ended (.refused s!"reading columns weight, profit1, profit2 of {path}")
  | .crashed cause => .ended (.crashed cause)

def itemOutcome (path : String) : ItemFault → Outcome
  | .missing column row => .ended (.refused s!"missing {column} in row {row}")
  | .negativeWeight => .ended (.refused s!"negative weight in {path}")
  | .invalid cause => .ended (.refused (Fault.invalid cause).message)
  | .crash cause => .ended (.crashed cause)

/-- A random knapsack. A list that is too long is not even asked room for. -/
def drawn (outcome : Failure → Outcome) (g : Generator) (plan : KnapsackPlan) (seed : Nat) :
    Step m Knapsack := do
  if plan.items ≤ maxLength then hold (3 * plan.items)
  orEnd outcome (plan.randomBy g (UInt64.ofNat seed))

/-- The knapsack that the options describe. -/
def load (tools : Tools m) (o : InstanceOptions) : Step m Knapsack := do
  match o.csv? with
  | some path =>
    let columns ← orEnd (scanOutcome path) (← ask (tools.scan path))
    hold (3 * columns.weights.length)
    orEnd (itemOutcome path) (Knapsack.ofColumns columns o.capacity?)
  | none => drawn outcomeOf tools.generator { items := o.items } o.seed

def program (fault : Fault → String) (k : Knapsack) : Step m (Program Float) := do
  hold (3 * k.items)
  orEnd (fun cause => .ended (.refused (fault (.invalid cause)))) k.toProgram

/-- The knapsack that the options describe, and its program. -/
def prepare (tools : Tools m) (o : InstanceOptions) : Step m (Knapsack × Program Float) := do
  let k ← load tools o
  return (k, ← program Fault.message k)

/-- The time limit of a number of seconds, to the nearest nanosecond. -/
def timeLimit (seconds : Float) : Except Exit Duration :=
  let refusal := Exit.refused "time limit must be a non-negative number of seconds"
  match Binary64.ofFloat seconds with
  | .finite negative significand q =>
    if negative && significand ≠ 0 then .error refusal
    else
      let (num, den) := Binary64.scaled significand q Duration.nanosPerSecond
      let nanos := roundDiv num den
      if UInt64.size * Duration.nanosPerSecond ≤ nanos then .error (.crashed .durationOverflow)
      else .ok ⟨nanos⟩
  | _ => .error refusal

def config (o : SolveOptions) (limit : Duration) : Config Float :=
  let c := (Config.standard.withTimeLimit limit).withProgress o.progress
  let c := if o.ranking then c.ranking else c
  let c := if o.depthFirst then c.depthFirst else c
  match o.out? with
  | some path => c.withOutput path
  | none => c

def told (d : Directive Float) : StateT (Enumerator Float) (Step m) Unit := modify (·.follow d)

/-- Asks a solver for a solve, whose assignment needs room. -/
def solved : StateT (Enumerator Float) (Step m) (Answer Float) := do
  let e ← get
  hold (m := m) e.program.dimension
  set e.solve.2
  return e.solve.1

def elapsed (start : Duration) : StateT (Enumerator Float) (Step m) Duration := do
  return (← ask (m := m) Host.now).since start

/-- Holds a session with a solver of a program, under the host's clock. -/
def converse {α : Type} (program : Program Float) (session : Session Float α) : Step m α := do
  let start ← ask Host.now
  (session.interpret told solved (elapsed start)).run' (.ofProgram program none)

/-- Appends the results to the output of a configuration, and tells whether
that worked. -/
def persist (cfg : Config Float) (c : Conclusion Float) : m Bool := do
  match cfg.output? with
  | none => return false
  | some path =>
    match ← Host.append path (Report.text ReportFormat.plain c.statistics c.frontier) with
    | .ok () => return true
    | .error _ => return false

def run (outcome : Failure → Outcome) (cfg : Config Float) (program : Program Float) :
    Step m (Conclusion Float) := do
  orEnd outcome (← converse program (Run.session cfg program.dimension ampleFuel))

def revision : m String := do
  match ← Host.getVar? "GIT_COMMIT" with
  | some text => return if text.isEmpty then "unknown" else text
  | none => return "unknown"

def writeRecord (result : String) (p : RunParameters) (c : Conclusion Float) : Step m Unit := do
  let path := Provenance.pathOf result
  let directory := Path.directory path
  if !directory.isEmpty then
    orEnd (fun _ => .ended (.refused s!"creating provenance dir {directory}"))
      (← ask (Host.createDirs directory))
  let record := Provenance.record (← ask revision) result p c
  orEnd (fun _ => .ended (.refused s!"writing {path}"))
    (← ask (Host.write path (record.render 0)))

/-- A solution of the frontier, marked as supported or not. -/
def solutionLine (s : Solution Float) : String :=
  numeral s.z1 ++ "\t" ++ numeral s.z2 ++ "\t" ++ (if s.supported then "S" else "U") ++ "\n"

def resultLines (c : Conclusion Float) : List String :=
  c.frontier.all.map solutionLine ++ [c.statistics.display]

/-- Appends a conclusion to the output, prints it, and writes its record if it was
appended. -/
def publish (o : SolveOptions) (cfg : Config Float) (k : Knapsack) (c : Conclusion Float) :
    Step m Unit := do
  let persisted ← ask (persist cfg c)
  printAll (resultLines c)
  if persisted then
    if let some path := cfg.output? then
      let parameters : RunParameters :=
        { csv? := o.source.csv?, items := k.items, seed := o.source.seed, capacity := k.capacity
          strategy := cfg.strategy, queueOrder := cfg.queueOrder, timeLimit := cfg.timeLimit }
      writeRecord path parameters c

/-- The reference answer. All feasible points are gathered for it. -/
def reference (program : Program Float) : Step m (List (Point Float)) := do
  hold (2 * program.feasiblePoints.length)
  return program.paretoPoints

def verify (program : Program Float) (c : Conclusion Float) : Step m Unit := do
  let expected ← reference program
  if c.frontier.points != expected then
    throw (.ended (.refused (s!"frontier differs from brute force: {c.frontier.size} points " ++
      s!"found, {expected.length} expected")))

def solve (tools : Tools m) (o : SolveOptions) : Step m Exit := do
  let limit ← orEnd .ended (timeLimit o.timeLimit)
  let (k, program) ← prepare tools o.source
  let c ← run outcomeOf (config o limit) program
  publish o (config o limit) k c
  if o.verify then verify program c
  return if c.status.isPartial then .incomplete else .success

def pointLine (z : Point Float) : String := numeral z.z1 ++ "\t" ++ numeral z.z2 ++ "\n"

/-- Prints the reference answer. -/
def brute (tools : Tools m) (o : InstanceOptions) : Step m Exit := do
  let (_, program) ← prepare tools o
  printAll ((← reference program).map pointLine)
  return .success

/-- What a step comes to. -/
def finish (step : Step m Exit) : m Outcome := do
  match ← step.run with
  | .ok exit => return .ended exit
  | .error outcome => return outcome

/-- What the words of a command line come to with some tools. -/
def outcome (tools : Tools m) (words : List String) : m Outcome :=
  match tools.parse words with
  | .error exit => return .ended exit
  | .ok (.solve o) => finish (solve tools o)
  | .ok (.brute o) => finish (brute tools o)

/-- The exit of an outcome. Nothing is unfinished but what is given up. -/
def exitOf : Outcome → Exit
  | .ended exit => exit
  | .unfinished => .crashed .givenUp

/-- Does what the words of a command line ask for. -/
def execute (words : List String) : m Exit := do
  return exitOf (← outcome .standard words)

/-- A text filled up with blanks on the left. -/
def padLeft (width : Nat) (text : String) : String :=
  String.ofList (List.replicate (width - text.length) ' ') ++ text

def demoOutcome : Failure → Outcome
  | .fault f => .ended (.refused f.inspect)
  | other => outcomeOf other

def demoLine (s : Solution Float) : String :=
  padLeft 8 (numeral s.z1) ++ " " ++ padLeft 8 (numeral s.z2) ++ " " ++
    (if s.supported then "supported" else "") ++ "\n"

/-- Solves a random knapsack, whose number of items and seed may be given, and
prints its frontier in columns. -/
def demo (words : List String) : m Exit := do
  let number (word? : Option String) (default : Nat) : Nat :=
    ((word?.bind fun word => Decimal.boundedNat? Request.wordBound word.toList)).getD default
  let outcome ← finish do
    let k ← drawn demoOutcome .standard { items := number words[0]? 12 } (number words[1]? 0)
    let c ← run demoOutcome Config.standard (← program Fault.inspect k)
    printAll (c.frontier.all.map demoLine ++ [c.statistics.display])
    return .success
  return exitOf outcome

end Command

end Biobjective
