import Biobjective.Oracle
import Mathlib.Algebra.Order.Floor.Ring
import Mathlib.Data.Rat.Floor
import Mathlib.Tactic.Linarith
import Mathlib.Tactic.NormNum

/-!
# Whole numbers among the scalars

Read exactly, the objective values of a program with whole coefficients are
whole numbers. Between whole numbers a strict inequality leaves room for a
unit, so the tolerances of the search, all of them below one, decide nothing:
a snapped sum is the sum itself, a range with slack is the range without it,
and a cap that is half a unit above a level admits the level only.
-/

namespace Biobjective

/-- The scalar is a whole number. -/
def IsWhole (x : ℚ) : Prop := ∃ k : ℤ, (k : ℚ) = x

theorem isWhole_zero : IsWhole 0 := ⟨0, by simp⟩

theorem isWhole_one : IsWhole 1 := ⟨1, by simp⟩

namespace IsWhole

theorem add {x y : ℚ} (hx : IsWhole x) (hy : IsWhole y) : IsWhole (x + y) := by
  obtain ⟨j, rfl⟩ := hx
  obtain ⟨k, rfl⟩ := hy
  exact ⟨j + k, by push_cast; rfl⟩

theorem sub {x y : ℚ} (hx : IsWhole x) (hy : IsWhole y) : IsWhole (x - y) := by
  obtain ⟨j, rfl⟩ := hx
  obtain ⟨k, rfl⟩ := hy
  exact ⟨j - k, by push_cast; rfl⟩

theorem mul {x y : ℚ} (hx : IsWhole x) (hy : IsWhole y) : IsWhole (x * y) := by
  obtain ⟨j, rfl⟩ := hx
  obtain ⟨k, rfl⟩ := hy
  exact ⟨j * k, by push_cast; rfl⟩

/-- Whole numbers less than a unit apart are in order. -/
theorem le_of_lt_add_one {x y : ℚ} (hx : IsWhole x) (hy : IsWhole y)
    (h : x < y + 1) : x ≤ y := by
  obtain ⟨j, rfl⟩ := hx
  obtain ⟨k, rfl⟩ := hy
  have hjk : j < k + 1 := by exact_mod_cast h
  exact_mod_cast Int.lt_add_one_iff.1 hjk

/-- A strict inequality between whole numbers leaves room for a unit. -/
theorem add_one_le_of_lt {x y : ℚ} (hx : IsWhole x) (hy : IsWhole y)
    (h : x < y) : x + 1 ≤ y := by
  have hxy : x + 1 < y + 1 := by linarith
  exact le_of_lt_add_one (hx.add isWhole_one) hy hxy

end IsWhole

namespace Scalar

theorem magnitude_rat (x : ℚ) : magnitude x = |x| := by
  by_cases hx : x < 0
  · rw [magnitude_of_neg hx, abs_of_neg hx]
  · rw [magnitude_of_not_neg hx, abs_of_nonneg (not_lt.1 hx)]

theorem round_intCast (k : ℤ) : Scalar.round (k : ℚ) = k := by
  have hup : ∀ j : ℤ, ((j : ℚ) + 1 / 2).floor = j := by
    intro j
    have hj : ⌊(j : ℚ) + 1 / 2⌋ = j := by
      rw [Int.floor_eq_iff]
      constructor <;> linarith
    exact hj
  by_cases hk : (k : ℚ) < 0
  · have hneg : (-(k : ℚ) + 1 / 2).floor = -k := by exact_mod_cast hup (-k)
    change (if (k : ℚ) < 0 then -((-(k : ℚ) + 1 / 2).floor : ℚ) else _) = _
    rw [if_pos hk, hneg]
    simp
  · change (if (k : ℚ) < 0 then _ else (((k : ℚ) + 1 / 2).floor : ℚ)) = _
    rw [if_neg hk, hup]

/-- A whole sum is not moved by snapping. -/
theorem snap_of_isWhole {x : ℚ} (hx : IsWhole x) : snap x = x := by
  obtain ⟨k, rfl⟩ := hx
  simp only [snap, round_intCast, ite_self]

theorem slack_rat : (Scalar.slack : ℚ) = 1 / 1000000000 := rfl

end Scalar

namespace Interval

/-- Among whole numbers a range with whole ends admits exactly what lies
between them. -/
theorem allows_between {lo hi z : ℚ} (hlo : IsWhole lo) (hhi : IsWhole hi)
    (hz : IsWhole z) : (between lo hi).allows z = true ↔ lo ≤ z ∧ z ≤ hi := by
  simp only [allows, between, Bool.and_eq_true, decide_eq_true_eq, Scalar.slack_rat]
  constructor
  · rintro ⟨h1, h2⟩
    exact ⟨hlo.le_of_lt_add_one hz (by linarith),
      hz.le_of_lt_add_one hhi (by linarith)⟩
  · rintro ⟨h1, h2⟩
    exact ⟨by linarith, by linarith⟩

/-- A cap at most half a unit above a whole level admits no whole number above
the level. -/
theorem allows_cap {level tie z : ℚ} (hlevel : IsWhole level) (hz : IsWhole z)
    (htie : 0 ≤ tie) (hhalf : tie ≤ 1 / 2) :
    (Interval.mk none (some (level + tie))).allows z = true ↔ z ≤ level := by
  simp only [allows, Scalar.isNumber_rat, Bool.true_and, decide_eq_true_eq, Scalar.slack_rat]
  constructor
  · intro h
    exact hz.le_of_lt_add_one hlevel (by linarith)
  · intro h
    linarith

@[simp] theorem allows_unbounded (z : ℚ) : (unbounded : Interval ℚ).allows z = true := by
  simp [allows, unbounded]

end Interval

end Biobjective
