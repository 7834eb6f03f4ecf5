/-!
# Scalars

Every objective value, weight and bound of the library is a scalar. The search
is written once for any type with the operations of `Scalar`. It runs on the
binary floating-point type `Float`, and it is read exactly on `Rat`; the two
readings share each definition and each order of operations.

Comparisons may be partial. A scalar that is not comparable with itself is no
number, and `Scalar.isNumber` singles out the ones that are; on `Rat` every
scalar is a number.
-/

namespace Biobjective

/-- Arithmetic and comparison of objective values, together with the constants
that the search compares against. -/
class Scalar (K : Type) extends Add K, Sub K, Mul K, Neg K, Zero K, One K, LE K, LT K where
  decLE : DecidableLE K
  decLT : DecidableLT K
  half : K
  /-- The slack of a feasibility test, `10⁻⁹`. -/
  slack : K
  /-- Sums closer than this to an integer are taken for that integer, `10⁻⁷`. -/
  noise : K
  /-- The nearest integer, a half going away from zero. -/
  round : K → K
  /-- The scalar nearest to an integer of at most 64 bits. -/
  ofInt : Int → K

namespace Scalar

instance {K : Type} [Scalar K] : DecidableLE K := Scalar.decLE

instance {K : Type} [Scalar K] : DecidableLT K := Scalar.decLT

instance : Scalar Float where
  zero := 0.0
  one := 1.0
  decLE := inferInstance
  decLT := inferInstance
  half := 0.5
  slack := 1e-9
  noise := 1e-7
  round := Float.round
  ofInt n := (Int64.ofInt n).toFloat

instance : Scalar Rat where
  zero := 0
  one := 1
  decLE := inferInstance
  decLT := inferInstance
  half := 1 / 2
  slack := 1 / 1000000000
  noise := 1 / 10000000
  round q := if q < 0 then -((-q + 1 / 2).floor : Rat) else ((q + 1 / 2).floor : Rat)
  ofInt n := n

variable {K : Type} [Scalar K]

/-- A scalar is a number when it is comparable with itself. -/
def isNumber (x : K) : Bool := x ≤ x

@[inline] def magnitude (x : K) : K := if x < 0 then -x else x

/-- The larger of two scalars, the first one when neither is larger. What is
no number gives way to the other argument. -/
def larger (x y : K) : K :=
  if isNumber x then (if x < y then y else x) else y

/-- Incremental sums drift by a few units in the last place; `snap` puts a sum
back on the integer that it lies next to and keeps any other sum. -/
@[inline] def snap (x : K) : K :=
  let r := Scalar.round x
  if magnitude (x - r) < Scalar.noise then r else x

@[simp] theorem isNumber_rat (q : Rat) : isNumber q = true :=
  decide_eq_true Rat.le_refl

theorem magnitude_of_neg {x : K} (h : x < 0) : magnitude x = -x := if_pos h

theorem magnitude_of_not_neg {x : K} (h : ¬x < 0) : magnitude x = x := if_neg h

theorem larger_of_isNumber_of_lt {x y : K} (hx : isNumber x) (h : x < y) : larger x y = y := by
  simp [larger, hx, h]

theorem larger_of_isNumber_of_not_lt {x y : K} (hx : isNumber x) (h : ¬x < y) :
    larger x y = x := by
  simp [larger, hx, h]

end Scalar

end Biobjective
