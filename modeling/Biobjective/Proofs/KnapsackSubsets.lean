import Biobjective.Knapsack
import Biobjective.Proofs.AmpleFuel
import Biobjective.Proofs.Reference
import Mathlib.Algebra.BigOperators.Fin

/-!
# Knapsacks as subsets

A mask of the program of a knapsack stands for the subset of the items whose bits are set, and
every subset has its mask. The row is met within the slack just if the subset fits, since weights
and capacity are whole, and the point of the mask is the negated pair of profits. So a scan shows
the subsets that fit, each once, and the reference answer lists the profits of the maximal ones.
The empty subset fits, so a run never fails with a fault. `Knapsack.toProgram_refines` puts these
together.
-/

namespace Biobjective

namespace Program

/-- What a visitor that never stops the scan is shown, in order. -/
def shown (p : Program ℚ) : List (ℕ × Point ℚ) :=
  (p.scan (fun seen mask z => .yield ((mask, z) :: seen)) []).1.reverse

theorem shown_eq_map (p : Program ℚ) :
    p.shown = ((grayMasks p.dimension).filter p.rowsHold).map fun mask =>
      (mask, (p.position mask).point) := by
  rw [shown, p.scan_yield fun seen mask z => (mask, z) :: seen, List.foldl_flip_cons_eq_append,
    List.append_nil, List.reverse_reverse]

theorem mem_shown_iff {p : Program ℚ} {mask : ℕ} {z : Point ℚ} :
    (mask, z) ∈ p.shown ↔ p.FeasibleMask mask ∧ (p.position mask).point = z := by
  simp only [shown_eq_map, List.mem_map, List.mem_filter, Prod.mk.injEq, feasibleMask_iff]
  constructor
  · rintro ⟨mask, hmask, rfl, hz⟩
    exact ⟨hmask, hz⟩
  · rintro ⟨hmask, hz⟩
    exact ⟨mask, hmask, rfl, hz⟩

/-- A program is built from its own parts. -/
theorem build_eq_ok {K : Type} (p : Program K) : build p.c1 p.c2 p.rows = .ok p := by
  rw [build, dif_neg p.c1_ne_nil, dif_neg (not_lt.2 p.c1_length_le),
    dif_neg (not_not.2 p.c2_length)]
  have hnone : p.rows.findIdx? (fun r => r.coefs.length != p.c1.length) = none :=
    List.findIdx?_eq_none_iff.2 fun r hr => by simp [p.coefs_length r hr]
  split
  · next hsome => simp [hnone] at hsome
  · rfl

theorem nodup_shown (p : Program ℚ) : p.shown.Nodup := by
  rw [shown_eq_map]
  exact ((nodup_grayMasks _).filter _).map fun _ _ h => (Prod.mk.inj h).1

end Program

namespace Knapsack

/-- The sum of the values of the items in a subset. -/
def total (k : Knapsack) (values : List ℤ) (S : Finset (Fin k.items)) : ℤ :=
  ∑ i ∈ S, values.getD i 0

def weight (k : Knapsack) (S : Finset (Fin k.items)) : ℤ := k.total k.weights S

def profits (k : Knapsack) (S : Finset (Fin k.items)) : ℤ × ℤ :=
  (k.total k.profits1 S, k.total k.profits2 S)

/-- The subset fits, and no subset that fits has other profits that are both as large. -/
structure IsMaximal (k : Knapsack) (S : Finset (Fin k.items)) : Prop where
  fits : k.weight S ≤ k.capacity
  eq_of_le : ∀ T, k.weight T ≤ k.capacity → (k.profits S).1 ≤ (k.profits T).1 →
    (k.profits S).2 ≤ (k.profits T).2 → k.profits T = k.profits S

/-- The point of two profits, both of them to be made large. -/
def negated (profits : ℤ × ℤ) : Point ℚ := ⟨-profits.1, -profits.2⟩

theorem negated_injective : Function.Injective negated := by
  rintro ⟨a1, a2⟩ ⟨b1, b2⟩ h
  simpa [negated] using h

/-- The items whose bits are set. -/
def taken (k : Knapsack) (mask : ℕ) : Finset (Fin k.items) :=
  Finset.univ.filter fun i => mask.testBit i

/-- The mask of a subset. -/
def maskOf (k : Knapsack) (S : Finset (Fin k.items)) : ℕ := Nat.ofBits fun i => decide (i ∈ S)

theorem maskOf_lt (k : Knapsack) (S : Finset (Fin k.items)) : k.maskOf S < 2 ^ k.items :=
  Nat.ofBits_lt_two_pow _

@[simp] theorem taken_maskOf (k : Knapsack) (S : Finset (Fin k.items)) :
    k.taken (k.maskOf S) = S := by
  ext i
  simp [taken, maskOf]

theorem maskOf_taken (k : Knapsack) {mask : ℕ} (h : mask < 2 ^ k.items) :
    k.maskOf (k.taken mask) = mask := by
  simp [taken, maskOf, Nat.ofBits_testBit, Nat.mod_eq_of_lt h]

/-- The program of a knapsack with not too many items. -/
def program (k : Knapsack) (h : k.items ≤ maxVariables) : Program ℚ :=
  { c1 := k.profits1.map fun a : ℤ => -(a : ℚ)
    c2 := k.profits2.map fun a : ℤ => -(a : ℚ)
    rows := [⟨k.weights.map fun a : ℤ => (a : ℚ), .atMost, k.capacity⟩]
    c1_ne_nil := by
      rw [← List.length_pos_iff, List.length_map, k.profits1_length]
      exact List.length_pos_iff.2 k.weights_ne_nil
    c1_length_le := by
      rw [List.length_map, k.profits1_length]
      exact h
    c2_length := by
      rw [List.length_map, List.length_map, k.profits1_length, k.profits2_length]
    coefs_length := by
      simp [k.profits1_length] }

theorem toProgram_eq_ok (k : Knapsack) (h : k.items ≤ maxVariables) :
    k.toProgram = .ok (k.program h) :=
  (k.program h).build_eq_ok

theorem toProgram_eq_error {K : Type} [Scalar K] (k : Knapsack) (h : maxVariables < k.items) :
    k.toProgram (K := K) = .error (.tooManyVariables k.items maxVariables) := by
  have hlength : (k.profits1.map fun a => -(Scalar.ofInt a : K)).length = k.items := by
    rw [List.length_map, k.profits1_length, items]
  have hne : (k.profits1.map fun a => -(Scalar.ofInt a : K)) ≠ [] := by
    rw [← List.length_pos_iff, hlength]
    exact (Nat.zero_le _).trans_lt h
  rw [toProgram, Program.build, dif_neg hne, dif_pos (hlength ▸ h), hlength]

section Program

variable {k : Knapsack} {h : k.items ≤ maxVariables}

@[simp] theorem dimension_program : (k.program h).dimension = k.items := by
  rw [Program.dimension, program, List.length_map, k.profits1_length, items]

/-- A sum over an assignment is a sum over the subset of its mask. -/
theorem dot_decisions {values : List ℤ} (hlength : values.length = k.items) {g : ℤ → ℚ}
    (hg : g 0 = 0) (mask : ℕ) :
    dot (values.map g) ((k.program h).decisions mask) =
      ∑ i ∈ k.taken mask, g (values.getD i 0) := by
  have hmap : (values.map g).length = (k.program h).dimension := by
    rw [List.length_map, hlength, dimension_program]
  have hget : ∀ i : ℕ, (values.map g).getD i 0 = g (values.getD i 0) := by
    intro i
    rw [← hg, List.getD_map]
  rw [Program.dot_decisions _ hmap, dimension_program, Finset.sum_range, taken, Finset.sum_filter]
  simp only [hget, mul_ite, mul_one, mul_zero]

theorem dot_cast {values : List ℤ} (hlength : values.length = k.items) (mask : ℕ) :
    dot (values.map fun a : ℤ => (a : ℚ)) ((k.program h).decisions mask) =
      k.total values (k.taken mask) := by
  rw [dot_decisions hlength Int.cast_zero, total, Int.cast_sum]

theorem dot_neg_cast {values : List ℤ} (hlength : values.length = k.items) (mask : ℕ) :
    dot (values.map fun a : ℤ => -(a : ℚ)) ((k.program h).decisions mask) =
      -k.total values (k.taken mask) := by
  rw [dot_decisions hlength (by simp), total, Int.cast_sum, Finset.sum_neg_distrib]

theorem point_position (mask : ℕ) :
    ((k.program h).position mask).point = negated (k.profits (k.taken mask)) := by
  have h1 := dot_neg_cast (h := h) k.profits1_length mask
  have h2 := dot_neg_cast (h := h) k.profits2_length mask
  exact congrArg₂ Point.mk h1 h2

/-- The row is met within the slack just if the subset fits. -/
theorem feasibleMask_program_iff {mask : ℕ} :
    (k.program h).FeasibleMask mask ↔
      mask < 2 ^ k.items ∧ k.weight (k.taken mask) ≤ k.capacity := by
  -- The slack is less than a unit, and both sides are whole.
  have hrow : (k.weight (k.taken mask) : ℚ) ≤ k.capacity + 1 / 10 ^ 9 ↔
      k.weight (k.taken mask) ≤ k.capacity := by
    rw [← Int.cast_le (R := ℚ)]
    constructor
    · intro hle
      exact IsWhole.le_of_lt_add_one ⟨_, rfl⟩ ⟨_, rfl⟩ (hle.trans_lt (by norm_num))
    · intro hle
      exact hle.trans (by norm_num)
  have hdot : dot (k.weights.map fun a : ℤ => (a : ℚ)) ((k.program h).decisions mask) =
      k.weight (k.taken mask) := dot_cast rfl mask
  have hrows : (k.program h).rows =
      [⟨k.weights.map fun a : ℤ => (a : ℚ), .atMost, k.capacity⟩] := rfl
  rw [Program.FeasibleMask, dimension_program, Program.feasible_iff, hrows,
    List.forall_mem_singleton]
  simp only [Program.length_decisions, Row.MetWithin, hdot, hrow, true_and]
  rw [and_iff_right ((k.program h).decisions_zero_or_one mask)]

theorem wholeObjectives_program : (k.program h).WholeObjectives := by
  constructor
  all_goals
    intro c hc
    obtain ⟨a, -, rfl⟩ := List.mem_map.1 hc
    exact ⟨-a, by simp⟩

theorem mem_outcomes_program_iff {z : Point ℚ} :
    z ∈ (k.program h).outcomes ↔ ∃ S, k.weight S ≤ k.capacity ∧ negated (k.profits S) = z := by
  have houtcome : ∀ mask, (k.program h).maskOutcome mask = negated (k.profits (k.taken mask)) := by
    intro mask
    rw [Program.maskOutcome, wholeObjectives_program.outcome_eq
      ((k.program h).decisions_zero_or_one mask)]
    exact point_position mask
  simp only [Program.mem_outcomes_iff, feasibleMask_program_iff, houtcome]
  constructor
  · rintro ⟨mask, ⟨-, hfits⟩, hz⟩
    exact ⟨k.taken mask, hfits, hz⟩
  · rintro ⟨S, hfits, hz⟩
    refine ⟨k.maskOf S, ⟨k.maskOf_lt S, ?_⟩, ?_⟩
    · rwa [taken_maskOf]
    · rwa [taken_maskOf]

/-- The empty subset fits. -/
theorem exists_feasible_program : ∃ x, (k.program h).Feasible x := by
  have hempty : (k.program h).FeasibleMask (k.maskOf ∅) := by
    rw [feasibleMask_program_iff, taken_maskOf]
    exact ⟨k.maskOf_lt ∅, k.capacity_nonneg⟩
  exact ⟨_, hempty.2⟩

theorem mem_shown_program_iff {S : Finset (Fin k.items)} {z : Point ℚ} :
    (S, z) ∈ (k.program h).shown.map (fun (mask, z) => (k.taken mask, z)) ↔
      k.weight S ≤ k.capacity ∧ negated (k.profits S) = z := by
  simp only [List.mem_map, Prod.exists, Program.mem_shown_iff, feasibleMask_program_iff,
    point_position, Prod.mk.injEq]
  constructor
  · rintro ⟨mask, z', ⟨⟨-, hfits⟩, hz⟩, rfl, rfl⟩
    exact ⟨hfits, hz⟩
  · rintro ⟨hfits, hz⟩
    refine ⟨k.maskOf S, z, ⟨⟨k.maskOf_lt S, ?_⟩, ?_⟩, k.taken_maskOf S, rfl⟩
    all_goals rwa [taken_maskOf]

theorem nodup_shown_program :
    ((k.program h).shown.map fun (mask, z) => (k.taken mask, z)).Nodup := by
  refine List.Nodup.map_on ?_ (k.program h).nodup_shown
  rintro ⟨mask, z⟩ hmask ⟨mask', z'⟩ hmask' heq
  obtain ⟨htaken, rfl⟩ := Prod.mk.inj heq
  rw [Program.mem_shown_iff, feasibleMask_program_iff] at hmask hmask'
  rw [← k.maskOf_taken hmask.1.1, htaken, k.maskOf_taken hmask'.1.1]

theorem isPareto_program_iff {z : Point ℚ} :
    (k.program h).IsPareto z ↔ ∃ S, k.IsMaximal S ∧ negated (k.profits S) = z := by
  constructor
  · rintro ⟨hmem, hmin⟩
    obtain ⟨S, hfits, rfl⟩ := mem_outcomes_program_iff.1 hmem
    refine ⟨S, ⟨hfits, fun T hT h1 h2 => negated_injective ?_⟩, rfl⟩
    exact hmin _ (mem_outcomes_program_iff.2 ⟨T, hT, rfl⟩) (neg_le_neg (Int.cast_le.2 h1))
      (neg_le_neg (Int.cast_le.2 h2))
  · rintro ⟨S, hS, rfl⟩
    refine ⟨mem_outcomes_program_iff.2 ⟨S, hS.fits, rfl⟩, fun y hy h1 h2 => ?_⟩
    obtain ⟨T, hT, rfl⟩ := mem_outcomes_program_iff.1 hy
    rw [hS.eq_of_le T hT (Int.cast_le.1 (neg_le_neg_iff.1 h1))
      (Int.cast_le.1 (neg_le_neg_iff.1 h2))]

theorem exists_paretoPoints_program :
    ∃ pairs : List (ℤ × ℤ), (k.program h).paretoPoints = pairs.map negated ∧
      pairs.Pairwise (fun a b => b.1 < a.1) ∧
      ∀ ab, ab ∈ pairs ↔ ∃ S, k.IsMaximal S ∧ k.profits S = ab := by
  have hmem : ∀ z, z ∈ (k.program h).paretoPoints ↔
      ∃ S, k.IsMaximal S ∧ negated (k.profits S) = z := by
    intro z
    rw [Program.mem_paretoPoints_iff, isPareto_program_iff]
  obtain ⟨pairs, hpairs⟩ : (k.program h).paretoPoints ∈ Set.range (List.map negated) := by
    rw [Set.range_list_map]
    intro z hz
    obtain ⟨S, -, rfl⟩ := (hmem z).1 hz
    exact ⟨_, rfl⟩
  refine ⟨pairs, hpairs.symm, ?_, fun ab => ?_⟩
  · have hstairs := (k.program h).staircase_paretoPoints
    rw [← hpairs, Staircase, List.pairwise_map] at hstairs
    exact hstairs.imp fun hab => Int.cast_lt.1 (neg_lt_neg_iff.1 hab.1)
  · rw [← List.mem_map_of_injective negated_injective, hpairs, hmem]
    simp only [negated_injective.eq_iff]

end Program

/-- The program of a knapsack of at most 25 items refines it. A scan shows the subsets that fit,
each once and with its profits negated, and the reference answer lists the profits of the maximal
subsets, by descending first profit. No run on a fresh enumerator of the program fails with a
fault, and with ample fuel it concludes, unless the nodes overflow their counter. More than
25 items are refused. -/
theorem toProgram_refines (k : Knapsack) :
    (k.items ≤ 25 → ∃ p : Program ℚ, k.toProgram = .ok p ∧
      (p.shown.map fun (mask, z) => (k.taken mask, z)).Nodup ∧
      (∀ S z, (S, z) ∈ p.shown.map (fun (mask, z) => (k.taken mask, z)) ↔
        k.weight S ≤ k.capacity ∧ negated (k.profits S) = z) ∧
      (∃ pairs : List (ℤ × ℤ), p.paretoPoints = pairs.map negated ∧
        pairs.Pairwise (fun a b => b.1 < a.1) ∧
        ∀ ab, ab ∈ pairs ↔ ∃ S, k.IsMaximal S ∧ k.profits S = ab) ∧
      ∀ (m : Method ℚ) (fmt : ReportFormat ℚ) (clock : Clock) (limit? : Option ℕ) (fuel : ℕ)
        (files : Files), 0 ≤ m.config.tolerances.tie →
        let result :=
          (m.run fmt (Enumerator.oracle p) clock fuel (.ofProgram p limit?) files).result
        (∀ fault, result ≠ .error (.fault fault)) ∧
          (2 ^ (k.items + 1) < fuel →
            (∃ c, result = .ok c) ∨ result = .error (.crash .addOverflow))) ∧
    (25 < k.items → ∀ (K : Type) [Scalar K],
      k.toProgram (K := K) = .error (.tooManyVariables k.items 25)) := by
  refine ⟨fun h => ⟨k.program h, k.toProgram_eq_ok h, nodup_shown_program,
    fun S z => mem_shown_program_iff, exists_paretoPoints_program, ?_⟩,
    fun h K _ => k.toProgram_eq_error h⟩
  intro m fmt clock limit? fuel files htie result
  have hfeasible := exists_feasible_program (h := h)
  have hresult : result = _ := Method.run_result m fmt _ clock fuel _ files
  rw [hresult]
  refine ⟨Run.session_ne_fault hfeasible htie clock limit? fuel, fun hfuel => ?_⟩
  rw [← dimension_program (h := h)] at hfuel
  exact Run.session_concludes wholeObjectives_program hfeasible htie limit? hfuel

/-- Three items of which one fits at a time. -/
def threeItems : Knapsack :=
  { weights := [10, 20, 15]
    profits1 := [10, 20, 15]
    profits2 := [15, 10, 20]
    capacity := 20
    weights_ne_nil := by decide
    profits1_length := rfl
    profits2_length := rfl
    capacity_nonneg := by decide }

/-- Equal items, one more than a number. -/
def equalItems (n : ℕ) : Knapsack :=
  { weights := List.replicate (n + 1) 1
    profits1 := List.replicate (n + 1) 1
    profits2 := List.replicate (n + 1) 1
    capacity := 1
    weights_ne_nil := by simp
    profits1_length := rfl
    profits2_length := rfl
    capacity_nonneg := by decide }

/-- The first item fits, and the third one has more of both profits. -/
theorem toProgram_refines_threeItems :
    (∃ p : Program ℚ, threeItems.toProgram = .ok p ∧
      (threeItems.taken 1, negated (10, 15)) ∈
        p.shown.map (fun (mask, z) => (threeItems.taken mask, z)) ∧
      negated (10, 15) ∉ p.paretoPoints ∧ negated (15, 20) ∈ p.paretoPoints ∧
      ∀ fault, (({ config := .plain .ranking } : Method ℚ).run .bare (Enumerator.oracle p) .still
        ampleFuel (.ofProgram p none) .empty).result ≠ .error (.fault fault)) ∧
    (equalItems 25).toProgram (K := ℚ) = .error (.tooManyVariables 26 25) := by
  obtain ⟨p, hp, -, hshown, ⟨pairs, hpairs, -, hmem⟩, hruns⟩ :=
    (toProgram_refines threeItems).1 (by decide)
  have hthird : threeItems.IsMaximal (threeItems.taken 4) := ⟨by decide +kernel, by decide +kernel⟩
  refine ⟨⟨p, hp, (hshown _ _).2 ⟨by decide +kernel, by decide +kernel⟩, ?_, ?_, ?_⟩,
    (toProgram_refines (equalItems 25)).2 (by decide) ℚ⟩
  · rw [hpairs, List.mem_map_of_injective negated_injective, hmem]
    rintro ⟨S, hS, hprofits⟩
    have hequal := hS.eq_of_le _ hthird.fits (by rw [hprofits]; decide +kernel)
      (by rw [hprofits]; decide +kernel)
    rw [hprofits] at hequal
    revert hequal
    decide +kernel
  · rw [hpairs, List.mem_map_of_injective negated_injective, hmem]
    exact ⟨_, hthird, by decide +kernel⟩
  · exact (hruns { config := .plain .ranking } .bare .still none ampleFuel .empty
      (Config.fine_plain .ranking).tie_pos.le).1

end Knapsack

end Biobjective
