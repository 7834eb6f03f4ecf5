import Biobjective.Program
import Biobjective.Proofs.WholeNumber
import Mathlib.Algebra.BigOperators.Group.Finset.Basic
import Mathlib.Algebra.BigOperators.Ring.Finset
import Mathlib.Algebra.Ring.Rat
import Mathlib.Data.Set.Finite.Basic
import Mathlib.Data.Nat.Bitwise

/-!
# Assignments and their outcomes

What a program means, said without any enumeration: an assignment gives each
variable a zero or a one, it is feasible if each row holds of its product sum,
and its outcome is the pair of its two objective sums. `Program.outcomes` is
the set of all feasible outcomes and `Program.IsPareto` singles out those that
no other feasible outcome is at least as good as.

A mask below `2 ^ dimension` stands for the assignment of its bits, and every
assignment has its mask. `Program.position` is what a scan ought to hold at a
mask; one flip of a variable leads from the position of a mask to the position
of the mask with that bit turned.
-/

namespace Biobjective

/-- The product sum of coefficients and values. -/
def dot (c x : List ℚ) : ℚ := (List.zipWith (· * ·) c x).foldr (· + ·) 0

/-- Both coordinates are whole numbers. -/
structure Point.Whole (z : Point ℚ) : Prop where
  z1 : IsWhole z.z1
  z2 : IsWhole z.z2

namespace Program

/-- The assignment gives each variable a zero or a one and satisfies the
rows. -/
structure Feasible (p : Program ℚ) (x : List ℚ) : Prop where
  length_eq : x.length = p.dimension
  zero_or_one : ∀ v ∈ x, v = 0 ∨ v = 1
  satisfied : ∀ r ∈ p.rows, r.satisfied (dot r.coefs x) = true

def outcome (p : Program ℚ) (x : List ℚ) : Point ℚ :=
  snapPoint ⟨dot p.c1 x, dot p.c2 x⟩

def outcomes (p : Program ℚ) : Set (Point ℚ) :=
  {z | ∃ x, p.Feasible x ∧ p.outcome x = z}

/-- The outcome is feasible, and no other feasible outcome is as small in both
objectives. -/
structure IsPareto (p : Program ℚ) (z : Point ℚ) : Prop where
  mem : z ∈ p.outcomes
  eq_of_le : ∀ y ∈ p.outcomes, y.z1 ≤ z.z1 → y.z2 ≤ z.z2 → y = z

/-- The coefficients of both objectives are whole numbers. -/
structure WholeObjectives (p : Program ℚ) : Prop where
  c1 : ∀ c ∈ p.c1, IsWhole c
  c2 : ∀ c ∈ p.c2, IsWhole c

end Program

theorem isWhole_dot {c x : List ℚ} (hc : ∀ a ∈ c, IsWhole a)
    (hx : ∀ v ∈ x, v = 0 ∨ v = 1) : IsWhole (dot c x) := by
  induction c generalizing x with
  | nil => simpa [dot] using isWhole_zero
  | cons a c ih =>
      cases x with
      | nil => simpa [dot] using isWhole_zero
      | cons v x =>
          have htail : IsWhole (dot c x) :=
            ih (fun b hb => hc b (List.mem_cons_of_mem _ hb))
              (fun u hu => hx u (List.mem_cons_of_mem _ hu))
          have hv : IsWhole v := by
            rcases hx v List.mem_cons_self with rfl | rfl
            · exact isWhole_zero
            · exact isWhole_one
          have hav : IsWhole (a * v) := (hc a List.mem_cons_self).mul hv
          simpa [dot] using hav.add htail

namespace Program

theorem WholeObjectives.outcome_eq {p : Program ℚ} (hp : p.WholeObjectives) {x : List ℚ}
    (hx : ∀ v ∈ x, v = 0 ∨ v = 1) : p.outcome x = ⟨dot p.c1 x, dot p.c2 x⟩ := by
  rw [outcome, snapPoint, Scalar.snap_of_isWhole (isWhole_dot hp.c1 hx),
    Scalar.snap_of_isWhole (isWhole_dot hp.c2 hx)]

theorem WholeObjectives.whole {p : Program ℚ} (hp : p.WholeObjectives) {z : Point ℚ}
    (hz : z ∈ p.outcomes) : z.Whole := by
  obtain ⟨x, hx, rfl⟩ := hz
  rw [hp.outcome_eq hx.zero_or_one]
  exact ⟨isWhole_dot hp.c1 hx.zero_or_one, isWhole_dot hp.c2 hx.zero_or_one⟩

theorem decisions_zero_or_one (p : Program ℚ) (mask : ℕ) :
    ∀ v ∈ p.decisions mask, v = 0 ∨ v = 1 := by
  intro v hv
  obtain ⟨i, -, rfl⟩ := List.mem_map.1 hv
  by_cases hi : mask.testBit i
  · right
    simp [hi]
  · left
    simp [hi]

/-- Every assignment of zeros and ones is the assignment of some mask. -/
theorem exists_mask (p : Program ℚ) {x : List ℚ} (hlen : x.length = p.dimension)
    (hx : ∀ v ∈ x, v = 0 ∨ v = 1) :
    ∃ mask < 2 ^ p.dimension, p.decisions mask = x := by
  refine ⟨Nat.ofBits fun i : Fin p.dimension => decide (x.getD i 0 = 1),
    Nat.ofBits_lt_two_pow _, ?_⟩
  apply List.ext_getElem
  · simp [hlen]
  · intro i hi hi'
    have hn : i < p.dimension := by simpa using hi
    have hget : x.getD i 0 = x[i] := List.getD_eq_getElem x 0 hi'
    simp only [decisions, List.getElem_map, List.getElem_range,
      Nat.testBit_ofBits_lt _ i hn, hget, decide_eq_true_eq]
    rcases hx x[i] (List.getElem_mem hi') with h | h
    · rw [h]
      simp
    · rw [h]
      simp

theorem decisions_injOn (p : Program ℚ) : Set.InjOn p.decisions {m | m < 2 ^ p.dimension} := by
  intro m hm m' hm' heq
  apply Nat.eq_of_testBit_eq
  intro i
  by_cases hi : i < p.dimension
  · have hget := congrArg (·[i]?) heq
    simp only [decisions, List.getElem?_map, List.getElem?_range hi, Option.map_some,
      Option.some.injEq] at hget
    cases hbit : m.testBit i <;> cases hbit' : m'.testBit i <;> simp [hbit, hbit'] at hget ⊢
  · have hpow : 2 ^ p.dimension ≤ 2 ^ i := Nat.pow_le_pow_right two_pos (not_lt.1 hi)
    rw [Nat.testBit_lt_two_pow (hm.trans_le hpow), Nat.testBit_lt_two_pow (hm'.trans_le hpow)]

def FeasibleMask (p : Program ℚ) (mask : ℕ) : Prop :=
  mask < 2 ^ p.dimension ∧ p.Feasible (p.decisions mask)

def maskOutcome (p : Program ℚ) (mask : ℕ) : Point ℚ := p.outcome (p.decisions mask)

theorem mem_outcomes_iff (p : Program ℚ) (z : Point ℚ) :
    z ∈ p.outcomes ↔ ∃ mask, p.FeasibleMask mask ∧ p.maskOutcome mask = z := by
  constructor
  · rintro ⟨x, hx, rfl⟩
    obtain ⟨mask, hmask, rfl⟩ := p.exists_mask hx.length_eq hx.zero_or_one
    exact ⟨mask, ⟨hmask, hx⟩, rfl⟩
  · rintro ⟨mask, ⟨-, hx⟩, rfl⟩
    exact ⟨p.decisions mask, hx, rfl⟩

theorem FeasibleMask.maskOutcome_mem {p : Program ℚ} {mask : ℕ} (h : p.FeasibleMask mask) :
    p.maskOutcome mask ∈ p.outcomes :=
  (p.mem_outcomes_iff _).2 ⟨mask, h, rfl⟩

theorem finite_outcomes (p : Program ℚ) : p.outcomes.Finite := by
  apply ((Set.finite_lt_nat (2 ^ p.dimension)).image p.maskOutcome).subset
  intro z hz
  obtain ⟨mask, hmask, rfl⟩ := (p.mem_outcomes_iff z).1 hz
  exact ⟨mask, hmask.1, rfl⟩

theorem dot_decisions (p : Program ℚ) {c : List ℚ} (hc : c.length = p.dimension) (mask : ℕ) :
    dot c (p.decisions mask) =
      ∑ i ∈ Finset.range p.dimension, c.getD i 0 * if mask.testBit i then 1 else 0 := by
  have hzip : List.zipWith (· * ·) c (p.decisions mask) =
      (List.range p.dimension).map
        fun i => c.getD i 0 * if mask.testBit i then 1 else 0 := by
    apply List.ext_getElem
    · simp [hc]
    · intro i hi hi'
      have hn : i < c.length := by
        rw [hc]
        simpa using hi'
      have hget := List.getD_eq_getElem c 0 hn
      simp only [decisions, List.getElem_zipWith, List.getElem_map, List.getElem_range, hget]
  rw [dot, hzip]
  rfl

/-- Turning one bit adds or takes away the coefficient of its variable. -/
theorem dot_decisions_xor (p : Program ℚ) {c : List ℚ} (hc : c.length = p.dimension)
    (mask : ℕ) {i : ℕ} (hi : i < p.dimension) :
    dot c (p.decisions (mask ^^^ 2 ^ i)) =
      dot c (p.decisions mask) + (if mask.testBit i then -1 else 1) * c.getD i 0 := by
  rw [p.dot_decisions hc, p.dot_decisions hc,
    ← Finset.add_sum_erase _ _ (Finset.mem_range.2 hi),
    ← Finset.add_sum_erase _ _ (Finset.mem_range.2 hi)]
  have hrest : ∑ j ∈ (Finset.range p.dimension).erase i,
        c.getD j 0 * (if (mask ^^^ 2 ^ i).testBit j then 1 else 0) =
      ∑ j ∈ (Finset.range p.dimension).erase i,
        c.getD j 0 * (if mask.testBit j then (1 : ℚ) else 0) := by
    apply Finset.sum_congr rfl
    intro j hj
    have hne : i ≠ j := (Finset.ne_of_mem_erase hj).symm
    rw [Nat.testBit_xor, Nat.testBit_two_pow_of_ne hne, Bool.xor_false]
  rw [hrest, Nat.testBit_xor, Nat.testBit_two_pow_self]
  by_cases hbit : mask.testBit i
  · simp only [hbit, Bool.xor_true, Bool.not_true, Bool.false_eq_true, if_false, if_true]
    ring
  · simp only [hbit, Bool.xor_true, Bool.not_false, Bool.false_eq_true, if_false, if_true]
    ring

/-- What a scan ought to hold at a mask. -/
def position (p : Program ℚ) (mask : ℕ) : Position ℚ :=
  { mask
    point := ⟨dot p.c1 (p.decisions mask), dot p.c2 (p.decisions mask)⟩
    lhs := p.rows.map fun r => dot r.coefs (p.decisions mask) }

theorem position_zero (p : Program ℚ) : p.position 0 = p.origin := by
  have hdot : ∀ c : List ℚ, c.length = p.dimension → dot c (p.decisions 0) = 0 := by
    intro c hc
    rw [p.dot_decisions hc]
    simp
  have hlhs : (p.rows.map fun r => dot r.coefs (p.decisions 0)) = p.rows.map fun _ => 0 :=
    List.map_congr_left fun r hr => hdot r.coefs (p.coefs_length r hr)
  rw [position, origin, hdot p.c1 rfl, hdot p.c2 p.c2_length, hlhs]

/-- Flipping a variable leads from the position of a mask to that of the mask
with the bit turned. -/
theorem flip_position (p : Program ℚ) (mask : ℕ) {i : ℕ} (hi : i < p.dimension) :
    (p.position mask).flip (p.column i) = p.position (mask ^^^ 2 ^ i) := by
  have hlhs : List.zipWith
        (fun lhs coef : ℚ => lhs + (if mask.testBit i then -1 else 1) * coef)
        (p.rows.map fun r => dot r.coefs (p.decisions mask))
        (p.rows.map fun r => r.coefs.getD i 0) =
      p.rows.map fun r => dot r.coefs (p.decisions (mask ^^^ 2 ^ i)) := by
    rw [List.zipWith_map, List.zipWith_self]
    apply List.map_congr_left
    intro r hr
    rw [p.dot_decisions_xor (p.coefs_length r hr) mask hi]
  have h1 := p.dot_decisions_xor (c := p.c1) rfl mask hi
  have h2 := p.dot_decisions_xor p.c2_length mask hi
  rw [position, position, h1, h2, ← hlhs, ← Nat.one_shiftLeft]
  rfl

theorem rowsSatisfied_map (rows : List (Row ℚ)) (f : Row ℚ → ℚ) :
    rowsSatisfied rows (rows.map f) = true ↔ ∀ r ∈ rows, r.satisfied (f r) = true := by
  induction rows with
  | nil => simp [rowsSatisfied]
  | cons r rows ih => simp [rowsSatisfied, ih]

/-- The rows hold at the position of a mask exactly if its assignment is
feasible. -/
theorem rowsSatisfied_position (p : Program ℚ) (mask : ℕ) :
    rowsSatisfied p.rows (p.position mask).lhs = true ↔ p.Feasible (p.decisions mask) := by
  rw [position, rowsSatisfied_map]
  constructor
  · intro h
    exact ⟨by simp, p.decisions_zero_or_one mask, h⟩
  · intro h
    exact h.satisfied

end Program

end Biobjective
