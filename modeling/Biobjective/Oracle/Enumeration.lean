import Biobjective.Program

/-!
# The enumerating oracle

An `Enumerator` answers every solve by scanning a binary program. An exclusion
is compiled to a pair of masks: it forbids the assignments that agree with
`value` on the variables of `care`. Of several minimal assignments the first
one met is the answer.

A limit on the feasible assignments examined makes a solve give up; what it
reports as work is the number of assignments met.
-/

namespace Biobjective

structure Pattern where
  care : Nat
  value : Nat
deriving DecidableEq

def Pattern.hits (e : Pattern) (mask : Nat) : Bool := mask &&& e.care == e.value

/-- The pattern in which all literals fail. Literals on absent variables do
not count. -/
def Pattern.ofLiterals {K : Type} [Scalar K] (dimension : Nat) (literals : List (Literal K)) :
    Pattern :=
  literals.foldl (fun e l =>
    if l.index < dimension then
      { care := e.care ||| 1 <<< l.index
        value := if Scalar.half ≤ l.excluded then e.value ||| 1 <<< l.index else e.value }
    else e) ⟨0, 0⟩

/-- A solver of one binary program with the directives in force. -/
structure Enumerator (K : Type) where
  program : Program K
  weights : Weights K
  first : Interval K := .unbounded
  second : Interval K := .unbounded
  /-- The forbidden patterns, the last one first. -/
  excluded : List Pattern := []
  /-- The number of feasible assignments that a solve may examine. -/
  nodeLimit? : Option Nat := none
  solves : Nat := 0

/-- The least assignment seen so far. -/
structure Incumbent (K : Type) where
  value : K
  mask : Nat
  point : Point K

/-- What a solve has gathered. -/
structure Survey (K : Type) where
  examined : Nat
  overLimit : Bool
  best? : Option (Incumbent K)

namespace Enumerator

variable {K : Type} [Scalar K]

def ofProgram (program : Program K) (nodeLimit? : Option Nat) : Enumerator K :=
  { program, weights := ⟨1, 1⟩, nodeLimit? }

/-- An assignment obeys the ranges and the exclusions. -/
@[specialize] def obeys (e : Enumerator K) (mask : Nat) (z : Point K) : Bool :=
  e.first.allows z.z1 && e.second.allows z.z2 && !e.excluded.any (·.hits mask)

@[specialize] def examine (e : Enumerator K) (s : Survey K) (mask : Nat) (z : Point K) :
    ForInStep (Survey K) :=
  let examined := s.examined + 1
  if e.nodeLimit?.any (· < examined) then .done { s with examined, overLimit := true }
  else
    let z := Program.snapPoint z
    if e.obeys mask z then
      let value := e.weights.value z
      if s.best?.all fun best => value < best.value then
        .yield { s with examined, best? := some ⟨value, mask, z⟩ }
      else .yield { s with examined }
    else .yield { s with examined }

@[specialize] def answer (e : Enumerator K) : Answer K :=
  let (survey, nodes) := e.program.scan e.examine ⟨0, false, none⟩
  if survey.overLimit then .timedOut nodes
  else
    match survey.best? with
    | none => .infeasible
    | some best =>
      .optimal
        { toPoint := best.point
          value := best.value
          decisions := e.program.decisions best.mask
          nodes }

/-- Answers a solve and counts it. -/
@[specialize] def solve (e : Enumerator K) : Answer K × Enumerator K :=
  (e.answer, { e with solves := e.solves + 1 })

def setRange (e : Enumerator K) : Objective → Interval K → Enumerator K
  | .first, range => { e with first := range }
  | .second, range => { e with second := range }

def follow (e : Enumerator K) : Directive K → Enumerator K
  | .weights w => { e with weights := w }
  | .bound objective range => e.setRange objective range
  | .clear objective => e.setRange objective .unbounded
  | .exclude literals =>
    { e with excluded := Pattern.ofLiterals e.program.dimension literals :: e.excluded }

@[simp] theorem follow_program (e : Enumerator K) (d : Directive K) :
    (e.follow d).program = e.program := by
  rcases d with _ | ⟨_ | _, _⟩ | (_ | _) | _ <;> rfl

@[simp] theorem follow_nodeLimit? (e : Enumerator K) (d : Directive K) :
    (e.follow d).nodeLimit? = e.nodeLimit? := by
  rcases d with _ | ⟨_ | _, _⟩ | (_ | _) | _ <;> rfl

@[specialize] def oracle (program : Program K) : Oracle K (Enumerator K) :=
  { dimension := program.dimension, follow, solve }

end Enumerator

end Biobjective
