import Biobjective.Solution

/-!
# Oracles

An oracle answers weighted-sum questions about a fixed feasible region. It is
told the weights, bounds on the two objectives, and assignments to leave out;
each of these is a `Directive` and stays in force until it is revoked, and an
exclusion is never revoked. Asked to solve, it gives an `Answer`.

The search sees an oracle only through `Oracle.follow` and `Oracle.solve`. The
state type is free, so an answer may depend on everything told and asked
before.
-/

namespace Biobjective

inductive Objective where
  | first
  | second
deriving DecidableEq

/-- The place of an objective in a pair, counted from zero. -/
def Objective.index : Objective → Nat
  | .first => 0
  | .second => 1

/-- The coordinate of a point that belongs to an objective. -/
def Objective.of {K : Type} : Objective → Point K → K
  | .first, p => p.z1
  | .second, p => p.z2

/-- A range of objective values. An absent end is open. -/
structure Interval (K : Type) where
  lower? : Option K
  upper? : Option K
deriving DecidableEq

def Interval.unbounded {K : Type} : Interval K := ⟨none, none⟩

def Interval.between {K : Type} (lower upper : K) : Interval K := ⟨some lower, some upper⟩

/-- A value lies in the range, up to the feasibility slack. An open end still
asks for a number. -/
def Interval.allows {K : Type} [Scalar K] (i : Interval K) (z : K) : Bool :=
  (match i.lower? with
    | none => Scalar.isNumber z
    | some lower => lower - Scalar.slack ≤ z) &&
  (match i.upper? with
    | none => Scalar.isNumber z
    | some upper => z ≤ upper + Scalar.slack)

/-- One disjunct of an exclusion: the variable at `index` differs from
`excluded`. -/
structure Literal (K : Type) where
  /-- The variable, counted from zero. -/
  index : Nat
  excluded : K
deriving DecidableEq

/-- The nearer of zero and one, a half going up. -/
def binary {K : Type} [Scalar K] (x : K) : K := if Scalar.half ≤ x then 1 else 0

/-- The literals that together exclude one assignment. -/
def noGood {K : Type} [Scalar K] (decisions : List K) : List (Literal K) :=
  decisions.mapIdx fun index x => ⟨index, binary x⟩

@[simp] theorem length_noGood {K : Type} [Scalar K] (decisions : List K) :
    (noGood decisions).length = decisions.length := by
  simp [noGood]

inductive Directive (K : Type) where
  | weights (w : Weights K)
  | bound (objective : Objective) (range : Interval K)
  | clear (objective : Objective)
  /-- Ask that at least one of the literals holds. -/
  | exclude (literals : List (Literal K))
deriving DecidableEq

structure Optimum (K : Type) extends Point K where
  value : K
  decisions : List K
  nodes : Nat
deriving DecidableEq

/-- The solution that an optimum stands for, with its assignment if it is to
be kept. -/
def Optimum.toSolution {K : Type} (o : Optimum K) (supported keepDecisions : Bool) :
    Solution K :=
  { toPoint := o.toPoint, supported, decisions := if keepDecisions then o.decisions else [] }

inductive Answer (K : Type) where
  | optimal (o : Optimum K)
  | infeasible
  | timedOut (nodes : Nat)
deriving DecidableEq

namespace Answer

variable {K : Type}

def nodes : Answer K → Nat
  | .optimal o => o.nodes
  | .infeasible => 0
  | .timedOut nodes => nodes

def label : Answer K → String
  | .optimal _ => "optimal"
  | .infeasible => "infeasible"
  | .timedOut _ => "timed out"

end Answer

/-- A party that follows directives and answers solves, with states of type
`σ`. -/
structure Oracle (K σ : Type) where
  dimension : Nat
  follow : σ → Directive K → σ
  solve : σ → Answer K × σ

end Biobjective
