import Biobjective.Decimal.Binary64
import Biobjective.Proofs.ExactSolve
import Biobjective.Supported

/-!
# How large objective values are

The span of an objective is the sum of its coefficients' magnitudes. It bounds the objective
at every assignment, and also the difference of any two of its values. A weighted sum whose
weights are such differences, each of the other objective, is bounded by the product of the
spans. `Program.ceiling` is the largest of these bounds.

A whole number below `2 ^ 53` is the exact value of a double.
-/

namespace Biobjective

/-- The sum of the magnitudes. -/
def absSum (c : List ℚ) : ℚ := (c.map (|·|)).foldr (· + ·) 0

@[simp] theorem absSum_nil : absSum [] = 0 := rfl

@[simp] theorem absSum_cons (a : ℚ) (c : List ℚ) : absSum (a :: c) = |a| + absSum c := rfl

theorem absSum_nonneg (c : List ℚ) : 0 ≤ absSum c := by
  induction c with
  | nil => exact le_rfl
  | cons a c ih => exact add_nonneg (abs_nonneg a) ih

theorem abs_le_absSum_of_mem {c : List ℚ} {a : ℚ} (ha : a ∈ c) : |a| ≤ absSum c := by
  induction c with
  | nil => cases ha
  | cons b c ih =>
      rw [absSum_cons]
      rcases List.mem_cons.1 ha with rfl | ha
      · exact le_add_of_nonneg_right (absSum_nonneg c)
      · exact le_add_of_nonneg_of_le (abs_nonneg b) (ih ha)

theorem dot_cons_left (a : ℚ) (c x : List ℚ) :
    dot (a :: c) x = a * x.headD 0 + dot c x.tail := by
  cases x <;> simp [dot]

theorem headD_zero_or_one {x : List ℚ} (hx : ∀ v ∈ x, v = 0 ∨ v = 1) :
    x.headD 0 = 0 ∨ x.headD 0 = 1 := by
  cases x with
  | nil => exact Or.inl rfl
  | cons v x => exact hx v List.mem_cons_self

theorem abs_dot_sub_le (c : List ℚ) {x y : List ℚ} (hx : ∀ v ∈ x, v = 0 ∨ v = 1)
    (hy : ∀ v ∈ y, v = 0 ∨ v = 1) : |dot c x - dot c y| ≤ absSum c := by
  induction c generalizing x y with
  | nil => simp [dot]
  | cons a c ih =>
      have hhead : |x.headD 0 - y.headD 0| ≤ 1 := by
        rcases headD_zero_or_one hx with h | h <;> rcases headD_zero_or_one hy with h' | h' <;>
          rw [h, h'] <;> norm_num
      have htail := ih (fun v hv => hx v (List.mem_of_mem_tail hv))
        (fun v hv => hy v (List.mem_of_mem_tail hv))
      calc |dot (a :: c) x - dot (a :: c) y|
          = |a * (x.headD 0 - y.headD 0) + (dot c x.tail - dot c y.tail)| := by
            rw [dot_cons_left, dot_cons_left]
            ring_nf
        _ ≤ |a| * |x.headD 0 - y.headD 0| + |dot c x.tail - dot c y.tail| := by
            rw [← abs_mul]
            exact abs_add_le _ _
        _ ≤ |a| * 1 + absSum c := by gcongr
        _ = absSum (a :: c) := by rw [mul_one, absSum_cons]

theorem abs_dot_le (c : List ℚ) {x : List ℚ} (hx : ∀ v ∈ x, v = 0 ∨ v = 1) :
    |dot c x| ≤ absSum c := by
  have h := abs_dot_sub_le c hx (y := []) (fun v hv => absurd hv List.not_mem_nil)
  simpa [dot] using h

theorem IsWhole.neg {x : ℚ} (hx : IsWhole x) : IsWhole (-x) := by
  rw [← zero_sub]
  exact isWhole_zero.sub hx

theorem IsWhole.abs {x : ℚ} (hx : IsWhole x) : IsWhole |x| := by
  rcases abs_choice x with h | h
  · rw [h]
    exact hx
  · rw [h]
    exact hx.neg

/-- A whole number that is not negative is zero or at least one. -/
theorem IsWhole.eq_zero_or_one_le {x : ℚ} (hx : IsWhole x) (h : 0 ≤ x) : x = 0 ∨ 1 ≤ x := by
  rcases h.eq_or_lt with h | h
  · exact Or.inl h.symm
  · refine Or.inr ?_
    simpa using isWhole_zero.add_one_le_of_lt hx h

theorem isWhole_absSum {c : List ℚ} (hc : ∀ a ∈ c, IsWhole a) : IsWhole (absSum c) := by
  induction c with
  | nil => exact isWhole_zero
  | cons a c ih =>
      obtain ⟨ha, hc⟩ := List.forall_mem_cons.1 hc
      exact ha.abs.add (ih hc)

/-- A level raised by at most half a unit is not whole. -/
theorem not_isWhole_add_tie {level tie : ℚ} (hlevel : IsWhole level) (htie : 0 < tie)
    (hhalf : tie ≤ 1 / 2) : ¬IsWhole (level + tie) := by
  intro h
  have hle := h.le_of_lt_add_one hlevel (by linarith)
  linarith

namespace Program

def costs (p : Program ℚ) : Objective → List ℚ
  | .first => p.c1
  | .second => p.c2

/-- The sum of the coefficients' magnitudes. -/
def span (p : Program ℚ) (i : Objective) : ℚ := absSum (p.costs i)

/-- No number that a run computes from the objectives is larger, save the weight one. -/
def ceiling (p : Program ℚ) : ℚ :=
  max (max (p.span .first) (p.span .second)) (2 * p.span .first * p.span .second)

/-- The number is whole and within the span of an objective. -/
structure Fits (p : Program ℚ) (i : Objective) (x : ℚ) : Prop where
  whole : IsWhole x
  le_span : |x| ≤ p.span i

/-- The number is whole and no larger than the ceiling. -/
structure InRange (p : Program ℚ) (x : ℚ) : Prop where
  whole : IsWhole x
  le_ceiling : |x| ≤ p.ceiling

/-- Both objectives span at least a unit. -/
def Spread (p : Program ℚ) : Prop := ∀ i, 1 ≤ p.span i

theorem span_nonneg (p : Program ℚ) (i : Objective) : 0 ≤ p.span i := absSum_nonneg _

theorem length_costs (p : Program ℚ) (i : Objective) : (p.costs i).length = p.dimension := by
  cases i with
  | first => rfl
  | second => exact p.c2_length

theorem Fits.of_le {p : Program ℚ} {i : Objective} {x lo hi : ℚ} (hx : IsWhole x)
    (hlo : p.Fits i lo) (hhi : p.Fits i hi) (h1 : lo ≤ x) (h2 : x ≤ hi) : p.Fits i x := by
  refine ⟨hx, abs_le.2 ⟨?_, ?_⟩⟩
  · exact (abs_le.1 hlo.le_span).1.trans h1
  · exact h2.trans (abs_le.1 hhi.le_span).2

/-- A unit below the greater of two whole numbers is not below the smaller one. -/
theorem Fits.pred {p : Program ℚ} {i : Objective} {lo hi : ℚ} (hhi : p.Fits i hi)
    (hlo : p.Fits i lo) (h : lo < hi) : p.Fits i (hi - 1) := by
  have hstep := hlo.whole.add_one_le_of_lt hhi.whole h
  exact .of_le (hhi.whole.sub isWhole_one) hlo hhi (by linarith) (by linarith)

namespace WholeObjectives

variable {p : Program ℚ} (hp : p.WholeObjectives)
include hp

theorem costs (i : Objective) : ∀ c ∈ p.costs i, IsWhole c := by
  cases i with
  | first => exact hp.c1
  | second => exact hp.c2

theorem of_outcome {x : List ℚ} (hx : ∀ v ∈ x, v = 0 ∨ v = 1) (i : Objective) :
    i.of (p.outcome x) = dot (p.costs i) x := by
  rw [hp.outcome_eq hx]
  cases i <;> rfl

theorem isWhole_span (i : Objective) : IsWhole (p.span i) := isWhole_absSum (hp.costs i)

theorem fits_of_mem_outcomes {z : Point ℚ} (hz : z ∈ p.outcomes) (i : Objective) :
    p.Fits i (i.of z) := by
  obtain ⟨x, hx, rfl⟩ := hz
  rw [hp.of_outcome hx.zero_or_one]
  exact ⟨isWhole_dot (hp.costs i) hx.zero_or_one, abs_dot_le _ hx.zero_or_one⟩

theorem fits_sub {y z : Point ℚ} (hy : y ∈ p.outcomes) (hz : z ∈ p.outcomes) (i : Objective) :
    p.Fits i (i.of y - i.of z) := by
  refine ⟨(hp.fits_of_mem_outcomes hy i).whole.sub (hp.fits_of_mem_outcomes hz i).whole, ?_⟩
  obtain ⟨x, hx, rfl⟩ := hy
  obtain ⟨x', hx', rfl⟩ := hz
  rw [hp.of_outcome hx.zero_or_one, hp.of_outcome hx'.zero_or_one]
  exact abs_dot_sub_le _ hx.zero_or_one hx'.zero_or_one

/-- The sums that a scan carries along. -/
theorem fits_of_mem_trail {q : Position ℚ} (hq : q ∈ p.trail) (i : Objective) :
    p.Fits i (i.of q.point) := by
  rw [trail_eq] at hq
  obtain ⟨mask, -, rfl⟩ := List.mem_map.1 hq
  have hbits := p.decisions_zero_or_one mask
  have hof : i.of (p.position mask).point = dot (p.costs i) (p.decisions mask) := by
    cases i <;> rfl
  rw [hof]
  exact ⟨isWhole_dot (hp.costs i) hbits, abs_dot_le _ hbits⟩

theorem fits_snapPoint {q : Position ℚ} (hq : q ∈ p.trail) (i : Objective) :
    p.Fits i (i.of (snapPoint q.point)) := by
  have hfits := hp.fits_of_mem_trail hq i
  have hsnap : i.of (snapPoint q.point) = Scalar.snap (i.of q.point) := by
    cases i <;> rfl
  rw [hsnap, Scalar.snap_of_isWhole hfits.whole]
  exact hfits

theorem fits_cost {c : Column ℚ} (hc : c ∈ p.columns) (i : Objective) :
    p.Fits i (i.of c.costs) := by
  obtain ⟨k, hk, rfl⟩ := List.mem_map.1 hc
  have hlt : k < (p.costs i).length := by
    rw [p.length_costs]
    exact List.mem_range.1 (List.mem_reverse.1 hk)
  have hof : i.of (p.column k).costs = (p.costs i)[k] := by
    rw [← List.getD_eq_getElem _ 0 hlt]
    cases i <;> rfl
  rw [hof]
  exact ⟨hp.costs i _ (List.getElem_mem hlt), abs_le_absSum_of_mem (List.getElem_mem hlt)⟩

/-- Two outcomes of which one lies to the lower right of the other are a unit apart. -/
theorem spread {y z : Point ℚ} (hy : y ∈ p.outcomes) (hz : z ∈ p.outcomes)
    (h1 : y.z1 < z.z1) (h2 : z.z2 < y.z2) : p.Spread := by
  have hunit : ∀ i (a b : Point ℚ), a ∈ p.outcomes → b ∈ p.outcomes → i.of a < i.of b →
      1 ≤ p.span i := by
    intro i a b ha hb hlt
    have hstep := (hp.fits_of_mem_outcomes ha i).whole.add_one_le_of_lt
      (hp.fits_of_mem_outcomes hb i).whole hlt
    have hle := (le_abs_self _).trans (hp.fits_sub hb ha i).le_span
    linarith
  intro i
  cases i with
  | first => exact hunit .first y z hy hz h1
  | second => exact hunit .second z y hz hy h2

end WholeObjectives

section Ceiling

variable (p : Program ℚ)

theorem span_le_ceiling (i : Objective) : p.span i ≤ p.ceiling := by
  cases i with
  | first => exact (le_max_left _ _).trans (le_max_left _ _)
  | second => exact (le_max_right _ _).trans (le_max_left _ _)

theorem two_mul_span_le_ceiling : 2 * (p.span .first * p.span .second) ≤ p.ceiling := by
  rw [← mul_assoc]
  exact le_max_right _ _

theorem inRange_zero : p.InRange 0 := by
  refine ⟨isWhole_zero, ?_⟩
  rw [abs_zero]
  exact (p.span_nonneg .first).trans (p.span_le_ceiling _)

variable {p}

theorem Fits.inRange {i : Objective} {x : ℚ} (hx : p.Fits i x) : p.InRange x :=
  ⟨hx.whole, hx.le_span.trans (p.span_le_ceiling i)⟩

/-- Where both objectives span a unit, a unit more than either span is within the ceiling. -/
theorem span_add_one_le_ceiling (hspread : p.Spread) (i : Objective) :
    p.span i + 1 ≤ p.ceiling := by
  have h1 := hspread .first
  have h2 := hspread .second
  have hmul := p.two_mul_span_le_ceiling
  cases i with
  | first => nlinarith
  | second => nlinarith

theorem Fits.add_one {i : Objective} {x : ℚ} (hspread : p.Spread) (hx : p.Fits i x) :
    p.InRange (x + 1) ∧ p.InRange (x - 1) := by
  have hceiling := span_add_one_le_ceiling hspread i
  obtain ⟨hlo, hhi⟩ := abs_le.1 hx.le_span
  refine ⟨⟨hx.whole.add isWhole_one, abs_le.2 ⟨?_, ?_⟩⟩,
    ⟨hx.whole.sub isWhole_one, abs_le.2 ⟨?_, ?_⟩⟩⟩ <;> linarith

namespace WholeObjectives

variable (hp : p.WholeObjectives)
include hp

theorem span_add_span_le_ceiling : p.span .first + p.span .second ≤ p.ceiling := by
  -- A span that is not zero is at least one, and a sum of such spans is at most twice the product.
  rcases (hp.isWhole_span .first).eq_zero_or_one_le (p.span_nonneg _) with h1 | h1
  · rw [h1, zero_add]
    exact p.span_le_ceiling .second
  · rcases (hp.isWhole_span .second).eq_zero_or_one_le (p.span_nonneg _) with h2 | h2
    · rw [h2, add_zero]
      exact p.span_le_ceiling .first
    · have hmul := p.two_mul_span_le_ceiling
      nlinarith

theorem ceiling_eq_zero_or_one_le : p.ceiling = 0 ∨ 1 ≤ p.ceiling := by
  have hone : ∀ i, 1 ≤ p.span i → 1 ≤ p.ceiling := fun i h => h.trans (p.span_le_ceiling i)
  rcases (hp.isWhole_span .first).eq_zero_or_one_le (p.span_nonneg _) with h1 | h1
  · rcases (hp.isWhole_span .second).eq_zero_or_one_le (p.span_nonneg _) with h2 | h2
    · left
      rw [ceiling, h1, h2]
      norm_num
    · exact Or.inr (hone _ h2)
  · exact Or.inr (hone _ h1)

theorem inRange_add {x y : ℚ} (hx : p.Fits .first x) (hy : p.Fits .second y) :
    p.InRange (x + y) :=
  ⟨hx.whole.add hy.whole, (abs_add_le x y).trans
    ((add_le_add hx.le_span hy.le_span).trans hp.span_add_span_le_ceiling)⟩

end WholeObjectives

end Ceiling

end Program

/-- The products of a weighted sum, and the sum. -/
def Weights.terms (w : Weights ℚ) (x y : ℚ) : List ℚ := [w.w1 * x, w.w2 * y, w.w1 * x + w.w2 * y]

namespace Program

/-- The weights are those of an untold enumerator, those of an anchor, or as small as those of
a chord. -/
inductive Weighs (p : Program ℚ) : Weights ℚ → Prop
  | untold : Weighs p ⟨1, 1⟩
  | anchor (i : Objective) : Weighs p (Anchor.weightsOf i)
  | chord {w : Weights ℚ} (h1 : p.Fits .second w.w1) (h2 : p.Fits .first w.w2) : Weighs p w

variable {p : Program ℚ}

theorem WholeObjectives.weighs_chord (hp : p.WholeObjectives) {a b : Solution ℚ}
    (ha : a.toPoint ∈ p.outcomes) (hb : b.toPoint ∈ p.outcomes) : p.Weighs (a.chord b) :=
  .chord (hp.fits_sub ha hb .second) (hp.fits_sub hb ha .first)

theorem Weighs.inRange_or_one (hp : p.WholeObjectives) {w : Weights ℚ} (h : p.Weighs w) {v : ℚ}
    (hv : v ∈ [w.w1, w.w2]) : p.InRange v ∨ p.ceiling = 0 ∧ v = 1 := by
  have hone : p.InRange 1 ∨ p.ceiling = 0 ∧ (1 : ℚ) = 1 := by
    rcases hp.ceiling_eq_zero_or_one_le with h | h
    · exact Or.inr ⟨h, rfl⟩
    · exact Or.inl ⟨isWhole_one, by rwa [abs_one]⟩
  rw [List.mem_pair] at hv
  cases h with
  | untold => rcases hv with rfl | rfl <;> exact hone
  | anchor i =>
      cases i with
      | first =>
          rcases hv with rfl | rfl
          · exact hone
          · exact Or.inl p.inRange_zero
      | second =>
          rcases hv with rfl | rfl
          · exact Or.inl p.inRange_zero
          · exact hone
  | chord h1 h2 =>
      rcases hv with rfl | rfl
      · exact Or.inl h1.inRange
      · exact Or.inl h2.inRange

theorem inRange_terms_of_fits {w : Weights ℚ} (h1 : p.Fits .second w.w1) (h2 : p.Fits .first w.w2)
    {x y : ℚ} (hx : p.Fits .first x) (hy : p.Fits .second y) : ∀ v ∈ w.terms x y, p.InRange v := by
  have hnonneg : 0 ≤ p.span .first * p.span .second :=
    mul_nonneg (p.span_nonneg _) (p.span_nonneg _)
  have hmul := p.two_mul_span_le_ceiling
  have hfirst : |w.w1 * x| ≤ p.span .first * p.span .second := by
    rw [abs_mul, mul_comm]
    exact mul_le_mul hx.le_span h1.le_span (abs_nonneg _) (p.span_nonneg _)
  have hsecond : |w.w2 * y| ≤ p.span .first * p.span .second := by
    rw [abs_mul]
    exact mul_le_mul h2.le_span hy.le_span (abs_nonneg _) (p.span_nonneg _)
  simp only [Weights.terms, List.forall_mem_cons, List.not_mem_nil, IsEmpty.forall_iff,
    implies_true, and_true]
  refine ⟨⟨h1.whole.mul hx.whole, ?_⟩, ⟨h2.whole.mul hy.whole, ?_⟩,
    ⟨(h1.whole.mul hx.whole).add (h2.whole.mul hy.whole), ?_⟩⟩
  · linarith
  · linarith
  · exact (abs_add_le _ _).trans (by linarith)

theorem Weighs.inRange_terms (hp : p.WholeObjectives) {w : Weights ℚ} (h : p.Weighs w) {x y : ℚ}
    (hx : p.Fits .first x) (hy : p.Fits .second y) : ∀ v ∈ w.terms x y, p.InRange v := by
  cases h with
  | untold => simp [Weights.terms, hx.inRange, hy.inRange, hp.inRange_add hx hy]
  | anchor i =>
      cases i with
      | first => simp [Weights.terms, Anchor.weightsOf, hx.inRange, p.inRange_zero]
      | second => simp [Weights.terms, Anchor.weightsOf, hy.inRange, p.inRange_zero]
  | chord h1 h2 => exact inRange_terms_of_fits h1 h2 hx hy

end Program

namespace Binary64

/-- The greatest exponent `q`. -/
def greatestExponent : ℤ := 971

/-- The number is the exact value of a finite double. -/
def Exact (x : ℚ) : Prop :=
  ∃ (negative : Bool) (m : ℕ) (q : ℤ), m < 2 ^ (fractionBits + 1) ∧ leastExponent ≤ q ∧
    q ≤ greatestExponent ∧ x = (if negative then -1 else 1) * m * 2 ^ q

theorem exact_of_isWhole {x : ℚ} (hx : IsWhole x) (h : |x| < 2 ^ 53) : Exact x := by
  obtain ⟨k, rfl⟩ := hx
  have hk : (k.natAbs : ℤ) < 2 ^ 53 := by
    rw [Int.natCast_natAbs]
    exact_mod_cast h
  refine ⟨decide (k < 0), k.natAbs, 0, ?_, by decide, by decide, ?_⟩
  · rw [fractionBits]
    omega
  · rw [zpow_zero, mul_one, Nat.cast_natAbs]
    by_cases hneg : k < 0
    · simp [hneg, abs_of_neg hneg]
    · simp [hneg, abs_of_nonneg (not_lt.1 hneg)]

end Binary64

end Biobjective
