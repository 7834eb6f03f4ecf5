import Biobjective.Oracle

/-!
# Regions

A box of objective space. A point cuts a box of whole-number points into the
part to its upper left and the part to its lower right: all else in the box is
covered by the point or covers it.
-/

namespace Biobjective

structure Region (K : Type) where
  lo1 : K
  hi1 : K
  lo2 : K
  hi2 : K
deriving DecidableEq

namespace Region

variable {K : Type}

def range (r : Region K) : Objective → Interval K
  | .first => .between r.lo1 r.hi1
  | .second => .between r.lo2 r.hi2

/-- The box spanned by two supported neighbours. -/
def ofCorners (left right : Solution K) : Region K :=
  ⟨left.z1, right.z1, right.z2, left.z2⟩

variable [Scalar K]

/-- The part of the box to the upper left of a point, if there is one. -/
def upperLeft? (r : Region K) (p : Point K) : Option (Region K) :=
  if r.lo1 ≤ p.z1 - 1 ∧ p.z2 + 1 ≤ r.hi2 then some ⟨r.lo1, p.z1 - 1, p.z2 + 1, r.hi2⟩
  else none

/-- The part of the box to the lower right of a point, if there is one. -/
def lowerRight? (r : Region K) (p : Point K) : Option (Region K) :=
  if p.z1 + 1 ≤ r.hi1 ∧ r.lo2 ≤ p.z2 - 1 then some ⟨p.z1 + 1, r.hi1, r.lo2, p.z2 - 1⟩
  else none

/-- What remains of the box around a point, from the left. -/
def split (r : Region K) (p : Point K) : List (Region K) :=
  (r.upperLeft? p).toList ++ (r.lowerRight? p).toList

end Region

end Biobjective
