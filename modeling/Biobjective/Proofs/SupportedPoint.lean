import Biobjective.Proofs.Assignment
import Biobjective.Proofs.Staircase
import Biobjective.Supported
import Mathlib.Data.Set.Finite.Lattice
import Mathlib.Order.Bounds.Basic

/-!
# Supported points and lexicographic minima

A feasible outcome is supported when it minimises some weighted sum with
positive weights over all feasible outcomes; such an outcome is Pareto. The
lexicographic minimum of an objective is supported too, since the outcomes are
finitely many whole points.

The first phase places a new point by its first objective alone. What makes
this right is `IsSupported.between`: a feasible outcome strictly below the chord
of two supported points lies strictly between them.
-/

namespace Biobjective

/-- The other one of the two objectives. -/
def Objective.other : Objective → Objective
  | .first => .second
  | .second => .first

/-- The weights that count an objective `m` times and the other one once. -/
def Objective.weights (i : Objective) (m : ℚ) : Weights ℚ :=
  match i with
  | .first => ⟨m, 1⟩
  | .second => ⟨1, m⟩

theorem Objective.value_weights (i : Objective) (m : ℚ) (z : Point ℚ) :
    (i.weights m).value z = m * i.of z + i.other.of z := by
  cases i with
  | first =>
      simp only [weights, Weights.value, Objective.of, other]
      ring
  | second =>
      simp only [weights, Weights.value, Objective.of, other]
      ring

theorem Point.Whole.of {z : Point ℚ} (h : z.Whole) (i : Objective) : IsWhole (i.of z) := by
  cases i with
  | first => exact h.z1
  | second => exact h.z2

theorem Point.eq_of_of {y z : Point ℚ} (i : Objective) (h : i.of y = i.of z)
    (h' : i.other.of y = i.other.of z) : y = z := by
  cases y
  cases z
  cases i with
  | first => exact congrArg₂ Point.mk h h'
  | second => exact congrArg₂ Point.mk h' h

/-- Positive weights tell a point from all points that it is as small as. -/
theorem Weights.eq_of_value_le (w : Weights ℚ) (hw1 : 0 < w.w1) (hw2 : 0 < w.w2) {y z : Point ℚ}
    (h1 : y.z1 ≤ z.z1) (h2 : y.z2 ≤ z.z2) (hle : w.value z ≤ w.value y) : y = z := by
  simp only [value] at hle
  have hp1 : w.w1 * y.z1 ≤ w.w1 * z.z1 := mul_le_mul_of_nonneg_left h1 hw1.le
  have hp2 : w.w2 * y.z2 ≤ w.w2 * z.z2 := mul_le_mul_of_nonneg_left h2 hw2.le
  have e1 : y.z1 = z.z1 := by
    have hprod : w.w1 * y.z1 = w.w1 * z.z1 := by linarith
    exact mul_left_cancel₀ hw1.ne' hprod
  have e2 : y.z2 = z.z2 := by
    have hprod : w.w2 * y.z2 = w.w2 * z.z2 := by linarith
    exact mul_left_cancel₀ hw2.ne' hprod
  exact Point.eq_of_of .first e1 e2

namespace Program

/-- Nothing feasible has a smaller weighted sum. -/
def Minimises (p : Program ℚ) (w : Weights ℚ) (z : Point ℚ) : Prop :=
  ∀ y ∈ p.outcomes, w.value z ≤ w.value y

/-- The outcome minimises a weighted sum with positive weights. -/
structure IsSupported (p : Program ℚ) (z : Point ℚ) : Prop where
  mem : z ∈ p.outcomes
  weights : ∃ w : Weights ℚ, 0 < w.w1 ∧ 0 < w.w2 ∧ p.Minimises w z

/-- The outcome has the least value of an objective, and of the outcomes with
that value the least one of the other objective. -/
structure IsLexMin (p : Program ℚ) (i : Objective) (z : Point ℚ) : Prop where
  mem : z ∈ p.outcomes
  lex : ∀ y ∈ p.outcomes, i.of z < i.of y ∨ (i.of z = i.of y ∧ i.other.of z ≤ i.other.of y)

theorem IsSupported.isPareto {p : Program ℚ} {z : Point ℚ} (h : p.IsSupported z) :
    p.IsPareto z := by
  obtain ⟨hz, w, hw1, hw2, hmin⟩ := h
  exact ⟨hz, fun y hy h1 h2 => w.eq_of_value_le hw1 hw2 h1 h2 (hmin y hy)⟩

theorem exists_lower_bound (p : Program ℚ) (i : Objective) :
    ∃ b, ∀ y ∈ p.outcomes, b ≤ i.of y := by
  obtain ⟨b, hb⟩ := (p.finite_outcomes.image i.of).bddBelow
  exact ⟨b, fun y hy => hb ⟨y, hy, rfl⟩⟩

/-- A large enough weight on the objective makes a lexicographic minimum the
minimum of a weighted sum. -/
theorem IsLexMin.isSupported {p : Program ℚ} (hp : p.WholeObjectives) {i : Objective}
    {z : Point ℚ} (h : p.IsLexMin i z) : p.IsSupported z := by
  obtain ⟨b, hb⟩ := p.exists_lower_bound i.other
  have hm : 0 < max 1 (i.other.of z - b) := lt_of_lt_of_le one_pos (le_max_left _ _)
  have hw : 0 < (i.weights (max 1 (i.other.of z - b))).w1 ∧
      0 < (i.weights (max 1 (i.other.of z - b))).w2 := by
    cases i with
    | first => exact ⟨hm, one_pos⟩
    | second => exact ⟨one_pos, hm⟩
  refine ⟨h.mem, i.weights (max 1 (i.other.of z - b)), hw.1, hw.2, ?_⟩
  intro y hy
  rw [i.value_weights, i.value_weights]
  rcases h.lex y hy with hlt | ⟨heq, hle⟩
  · have hstep : i.of z + 1 ≤ i.of y :=
      ((hp.whole h.mem).of i).add_one_le_of_lt ((hp.whole hy).of i) hlt
    have hfar := mul_le_mul_of_nonneg_left hstep hm.le
    have hgap : i.other.of z - b ≤ max 1 (i.other.of z - b) := le_max_right _ _
    have hlow := hb y hy
    rw [mul_add, mul_one] at hfar
    linarith
  · rw [heq]
    linarith

end Program

/-- The value of a chord's weights, measured from its left end. -/
theorem Solution.chord_value_sub (a b : Solution ℚ) (z : Point ℚ) :
    (a.chord b).value z - (a.chord b).value a.toPoint =
      (a.z2 - b.z2) * (z.z1 - a.z1) - (b.z1 - a.z1) * (a.z2 - z.z2) := by
  simp only [chord, Weights.value]
  ring

/-- With the left end as origin, first objectives counted to the right and second
ones downwards: a point below the line to `(d1, d2)` lies to the lower right, if
neither of the two is below some line of negative slope. -/
theorem pos_of_below_line {d1 d2 u1 u2 x y : ℚ} (hd1 : 0 < d1) (hd2 : 0 < d2) (hu2 : 0 < u2)
    (hend : 0 ≤ u1 * d1 - u2 * d2) (hpoint : 0 ≤ u1 * x - u2 * y)
    (hbelow : d2 * x - d1 * y < 0) : 0 < x ∧ 0 < y := by
  have hx : 0 < x := by
    by_contra hx
    rw [not_lt] at hx
    have h1 : u1 * d1 * x ≤ u2 * d2 * x :=
      mul_le_mul_of_nonpos_right (show u2 * d2 ≤ u1 * d1 by linarith) hx
    have h2 : u2 * (d2 * x) < u2 * (d1 * y) := mul_lt_mul_of_pos_left (by linarith) hu2
    have h3 : d1 * (u2 * y) ≤ d1 * (u1 * x) := mul_le_mul_of_nonneg_left (by linarith) hd1.le
    linarith
  have hdx : 0 < d2 * x := mul_pos hd2 hx
  exact ⟨hx, pos_of_mul_pos_right (show 0 < d1 * y by linarith) hd1.le⟩

/-- A feasible outcome strictly below the chord of two supported points lies
strictly between them. -/
theorem Program.IsSupported.between {p : Program ℚ} {a b : Solution ℚ} {z : Point ℚ}
    (ha : p.IsSupported a.toPoint) (hb : p.IsSupported b.toPoint)
    (hab : Descends a.toPoint b.toPoint) (hz : z ∈ p.outcomes)
    (hbelow : (a.chord b).value z < (a.chord b).value a.toPoint) :
    Descends a.toPoint z ∧ Descends z b.toPoint := by
  have hsub := Solution.chord_value_sub a b z
  have hd1 : 0 < b.z1 - a.z1 := sub_pos.2 hab.1
  have hd2 : 0 < a.z2 - b.z2 := sub_pos.2 hab.2
  constructor
  · obtain ⟨u, hu1, hu2, hmin⟩ := ha.weights
    have hend : u.w1 * a.z1 + u.w2 * a.z2 ≤ u.w1 * b.z1 + u.w2 * b.z2 := hmin _ hb.mem
    have hpoint : u.w1 * a.z1 + u.w2 * a.z2 ≤ u.w1 * z.z1 + u.w2 * z.z2 := hmin _ hz
    have hend' : 0 ≤ u.w1 * (b.z1 - a.z1) - u.w2 * (a.z2 - b.z2) := by linarith
    have hpoint' : 0 ≤ u.w1 * (z.z1 - a.z1) - u.w2 * (a.z2 - z.z2) := by linarith
    obtain ⟨hx, hy⟩ := pos_of_below_line hd1 hd2 hu2 hend' hpoint' (by linarith)
    exact ⟨sub_pos.1 hx, sub_pos.1 hy⟩
  · -- the same seen from the right end, with the objectives in each other's place
    obtain ⟨u, hu1, hu2, hmin⟩ := hb.weights
    have hend : u.w1 * b.z1 + u.w2 * b.z2 ≤ u.w1 * a.z1 + u.w2 * a.z2 := hmin _ ha.mem
    have hpoint : u.w1 * b.z1 + u.w2 * b.z2 ≤ u.w1 * z.z1 + u.w2 * z.z2 := hmin _ hz
    have hend' : 0 ≤ u.w2 * (a.z2 - b.z2) - u.w1 * (b.z1 - a.z1) := by linarith
    have hpoint' : 0 ≤ u.w2 * (z.z2 - b.z2) - u.w1 * (b.z1 - z.z1) := by linarith
    obtain ⟨hx, hy⟩ := pos_of_below_line hd2 hd1 hu1 hend' hpoint' (by linarith)
    exact ⟨sub_pos.1 hy, sub_pos.1 hx⟩

end Biobjective
