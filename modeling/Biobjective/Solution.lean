import Biobjective.Scalar

/-!
# Points, weights and solutions

A `Point` is a pair of objective values, both to be made small. A `Solution`
is a point that some assignment attains, with the mark of a supported point
and, where it is kept, the assignment itself.

Three relations compare solutions. `covers` is weak and tolerant: it decides
what a frontier discards. `strictlyDominates` is exact Pareto domination: it
decides what a frontier replaces. `dominatesWithin` is domination with the
same tolerance as `covers`.
-/

namespace Biobjective

structure Point (K : Type) where
  z1 : K
  z2 : K
deriving BEq, DecidableEq

structure Weights (K : Type) where
  w1 : K
  w2 : K
deriving BEq, DecidableEq

/-- A point of objective space that an assignment attains. -/
structure Solution (K : Type) extends Point K where
  /-- Whether the point is known to minimise some positive weighted sum. -/
  supported : Bool
  /-- The assignment, empty where it was not kept. -/
  decisions : List K
deriving BEq, DecidableEq

variable {K : Type} [Scalar K]

def Weights.value (w : Weights K) (p : Point K) : K :=
  w.w1 * p.z1 + w.w2 * p.z2

namespace Solution

/-- The solution `s` is no worse than `t` in both objectives, up to `eps`. -/
def covers (eps : K) (s t : Solution K) : Bool :=
  s.z1 - eps ≤ t.z1 && s.z2 - eps ≤ t.z2

def strictlyDominates (s t : Solution K) : Bool :=
  (s.z1 < t.z1 && s.z2 ≤ t.z2) || (s.z1 ≤ t.z1 && s.z2 < t.z2)

def dominatesWithin (eps : K) (s t : Solution K) : Bool :=
  covers eps s t &&
    (eps < Scalar.magnitude (s.z1 - t.z1) || eps < Scalar.magnitude (s.z2 - t.z2))

/-- The weights under which `left` and `right` have the same value: the normal
of the chord through them, where `left` has the smaller first objective. -/
def chord (left right : Solution K) : Weights K :=
  ⟨left.z2 - right.z2, right.z1 - left.z1⟩

end Solution

end Biobjective
