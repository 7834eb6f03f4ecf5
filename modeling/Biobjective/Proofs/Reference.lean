import Biobjective.Proofs.GrayWalk
import Biobjective.Proofs.Staircase

/-!
# The reference answer

`Program.paretoPoints` sorts the feasible points and keeps each one whose second
objective is below that of the last one kept. On a list sorted by the first
objective, ties by the second, this leaves exactly the points that no other
point of the list is as small as, and it leaves a staircase.

`Program.paretoPoints_exact` says the same of the program: the answer is its
Pareto set, read off the assignments and the rows.
-/

namespace Biobjective

/-- The left side meets the right side in the sense of the row, within a slack. -/
def Row.MetWithin (r : Row ℚ) (slack lhs : ℚ) : Prop :=
  match r.sense with
  | .atMost => lhs ≤ r.rhs + slack
  | .atLeast => r.rhs - slack ≤ lhs
  | .equal => |lhs - r.rhs| ≤ slack

theorem Row.satisfied_iff (r : Row ℚ) (lhs : ℚ) :
    r.satisfied lhs = true ↔ r.MetWithin (1 / 10 ^ 9) lhs := by
  have hslack : (Scalar.slack : ℚ) = 1 / 10 ^ 9 := by
    rw [Scalar.slack_rat]
    norm_num
  rw [satisfied, MetWithin, hslack]
  cases r.sense with
  | atMost => exact decide_eq_true_iff
  | atLeast => exact decide_eq_true_iff
  | equal =>
      rw [← Scalar.magnitude_rat]
      exact decide_eq_true_iff

namespace Program

theorem feasible_iff (p : Program ℚ) (x : List ℚ) :
    p.Feasible x ↔ x.length = p.dimension ∧ (∀ v ∈ x, v = 0 ∨ v = 1) ∧
      ∀ r ∈ p.rows, r.MetWithin (1 / 10 ^ 9) (dot r.coefs x) := by
  simp only [← Row.satisfied_iff]
  exact ⟨fun h => ⟨h.length_eq, h.zero_or_one, h.satisfied⟩, fun ⟨h1, h2, h3⟩ => ⟨h1, h2, h3⟩⟩

/-- The order in which points are sorted. -/
def LexLE (a b : Point ℚ) : Prop := a.z1 < b.z1 ∨ (a.z1 = b.z1 ∧ a.z2 ≤ b.z2)

theorem not_before_iff (a b : Point ℚ) : (!before b a) = true ↔ LexLE a b := by
  simp only [before, LexLE, Bool.not_eq_true', Bool.or_eq_false_iff, Bool.and_eq_false_iff,
    decide_eq_false_iff_not, not_lt, not_le]
  constructor
  · rintro ⟨h1, h2⟩
    rcases eq_or_lt_of_le h1 with heq | hlt
    · rcases h2 with (h2 | h2) | h2
      · exact absurd heq h2.ne
      · exact absurd heq.symm h2.ne
      · exact Or.inr ⟨heq, h2⟩
    · exact Or.inl hlt
  · rintro (h | ⟨h1, h2⟩)
    · exact ⟨h.le, Or.inl (Or.inl h)⟩
    · exact ⟨h1.le, Or.inr h2⟩

theorem LexLE.z1_le {a b : Point ℚ} (h : LexLE a b) : a.z1 ≤ b.z1 := by
  rcases h with h | h
  · exact h.le
  · exact h.1.le

theorem LexLE.trans {a b c : Point ℚ} (hab : LexLE a b) (hbc : LexLE b c) : LexLE a c := by
  rcases hab with h1 | ⟨h1, h2⟩
  · exact Or.inl (lt_of_lt_of_le h1 hbc.z1_le)
  · rcases hbc with h3 | ⟨h3, h4⟩
    · exact Or.inl (h1 ▸ h3)
    · exact Or.inr ⟨h1.trans h3, h2.trans h4⟩

theorem LexLE.total (a b : Point ℚ) : LexLE a b ∨ LexLE b a := by
  rcases lt_trichotomy a.z1 b.z1 with h | h | h
  · exact Or.inl (Or.inl h)
  · rcases le_total a.z2 b.z2 with h2 | h2
    · exact Or.inl (Or.inr ⟨h, h2⟩)
    · exact Or.inr (Or.inr ⟨h.symm, h2⟩)
  · exact Or.inr (Or.inl h)

/-- In order and as small means equal. -/
theorem LexLE.eq_of_le {a b : Point ℚ} (h : LexLE a b) (h1 : b.z1 ≤ a.z1) (h2 : b.z2 ≤ a.z2) :
    b = a := by
  rcases h with hlt | ⟨heq, hle⟩
  · exact absurd hlt (not_lt.2 h1)
  · cases a
    cases b
    simp only [Point.mk.injEq]
    exact ⟨heq.symm, le_antisymm h2 hle⟩

theorem descend_cons_of_lt {last? : Option ℚ} {z : Point ℚ} (h : ∀ last ∈ last?, z.z2 < last)
    (l : List (Point ℚ)) : descend last? (z :: l) = z :: descend (some z.z2) l := by
  cases last? with
  | none => rfl
  | some last => exact if_pos (h last rfl)

theorem descend_cons_of_le {last : ℚ} {z : Point ℚ} (h : last ≤ z.z2) (l : List (Point ℚ)) :
    descend (some last) (z :: l) = descend (some last) l :=
  if_neg (not_lt.2 h)

/-- What is kept of a sorted list: the points below the bar that no other point
of the list is as small as. -/
theorem mem_descend_iff {l : List (Point ℚ)} (hl : l.Pairwise LexLE) (last? : Option ℚ)
    (w : Point ℚ) :
    w ∈ descend last? l ↔ w ∈ l ∧ (∀ last ∈ last?, w.z2 < last) ∧
      ∀ y ∈ l, y.z1 ≤ w.z1 → y.z2 ≤ w.z2 → y = w := by
  induction l generalizing last? with
  | nil => simp [descend]
  | cons z l ih =>
      obtain ⟨hz, hl⟩ := List.pairwise_cons.1 hl
      by_cases hkeep : ∀ last ∈ last?, z.z2 < last
      · rw [descend_cons_of_lt hkeep, List.mem_cons, ih hl]
        constructor
        · rintro (rfl | ⟨hw, hlow, hmin⟩)
          · refine ⟨List.mem_cons_self, hkeep, ?_⟩
            intro y hy h1 h2
            rcases List.mem_cons.1 hy with rfl | hy
            · rfl
            · exact (hz y hy).eq_of_le h1 h2
          · have hwz : w.z2 < z.z2 := hlow z.z2 rfl
            refine ⟨List.mem_cons_of_mem _ hw, fun last h => hwz.trans (hkeep last h), ?_⟩
            intro y hy h1 h2
            rcases List.mem_cons.1 hy with rfl | hy
            · exact absurd hwz (not_lt.2 h2)
            · exact hmin y hy h1 h2
        · rintro ⟨hw, -, hmin⟩
          by_cases hzw : z.z2 ≤ w.z2
          · rcases List.mem_cons.1 hw with rfl | hw
            · exact Or.inl rfl
            · exact Or.inl (hmin z List.mem_cons_self (hz w hw).z1_le hzw).symm
          · rcases List.mem_cons.1 hw with rfl | hw
            · exact Or.inl rfl
            · refine Or.inr ⟨hw, ?_, fun y hy => hmin y (List.mem_cons_of_mem _ hy)⟩
              rintro last ⟨⟩
              exact not_le.1 hzw
      · push Not at hkeep
        obtain ⟨last, hlast, hle⟩ := hkeep
        rw [Option.mem_def] at hlast
        subst hlast
        rw [descend_cons_of_le hle, ih hl]
        constructor
        · rintro ⟨hw, hlow, hmin⟩
          refine ⟨List.mem_cons_of_mem _ hw, hlow, ?_⟩
          intro y hy h1 h2
          rcases List.mem_cons.1 hy with rfl | hy
          · exact absurd (hlow last rfl) (not_lt.2 (hle.trans h2))
          · exact hmin y hy h1 h2
        · rintro ⟨hw, hlow, hmin⟩
          refine ⟨?_, hlow, fun y hy => hmin y (List.mem_cons_of_mem _ hy)⟩
          rcases List.mem_cons.1 hw with rfl | hw
          · exact absurd (hlow last rfl) (not_lt.2 hle)
          · exact hw

theorem staircase_descend {l : List (Point ℚ)} (hl : l.Pairwise LexLE) (last? : Option ℚ) :
    Staircase (descend last? l) := by
  induction l generalizing last? with
  | nil =>
      rw [descend]
      exact List.Pairwise.nil
  | cons z l ih =>
      obtain ⟨hz, hl⟩ := List.pairwise_cons.1 hl
      by_cases hkeep : ∀ last ∈ last?, z.z2 < last
      · rw [descend_cons_of_lt hkeep]
        refine List.pairwise_cons.2 ⟨?_, ih hl _⟩
        intro w hw
        obtain ⟨hwl, hlow, -⟩ := (mem_descend_iff hl _ w).1 hw
        have hwz : w.z2 < z.z2 := hlow z.z2 rfl
        rcases hz w hwl with h1 | ⟨-, h2⟩
        · exact ⟨h1, hwz⟩
        · exact absurd hwz (not_lt.2 h2)
      · push Not at hkeep
        obtain ⟨last, hlast, hle⟩ := hkeep
        rw [Option.mem_def] at hlast
        subst hlast
        rw [descend_cons_of_le hle]
        exact ih hl _

theorem mem_feasiblePoints_iff (p : Program ℚ) (z : Point ℚ) :
    z ∈ p.feasiblePoints ↔ z ∈ p.outcomes := by
  have hfold : ∀ (masks : List ℕ) (points : List (Point ℚ)),
      z ∈ masks.foldl (fun points mask => snapPoint (p.position mask).point :: points) points ↔
        z ∈ points ∨ ∃ mask ∈ masks, p.maskOutcome mask = z := by
    intro masks
    induction masks with
    | nil => simp
    | cons mask masks ih =>
        intro points
        have hmask : snapPoint (p.position mask).point = p.maskOutcome mask := rfl
        rw [List.foldl_cons, ih, List.mem_cons, hmask]
        constructor
        · rintro ((rfl | h) | ⟨m, hm, h⟩)
          · exact Or.inr ⟨mask, List.mem_cons_self, rfl⟩
          · exact Or.inl h
          · exact Or.inr ⟨m, List.mem_cons_of_mem _ hm, h⟩
        · rintro (h | ⟨m, hm, rfl⟩)
          · exact Or.inl (Or.inr h)
          · rcases List.mem_cons.1 hm with rfl | hm
            · exact Or.inl (Or.inl rfl)
            · exact Or.inr ⟨m, hm, rfl⟩
  rw [feasiblePoints, p.scan_yield fun points _ z => snapPoint z :: points, hfold,
    mem_outcomes_iff]
  simp only [List.not_mem_nil, false_or, List.mem_filter, feasibleMask_iff]

theorem pairwise_sorted (l : List (Point ℚ)) :
    (l.mergeSort fun a b => !before b a).Pairwise LexLE := by
  have htrans : ∀ a b c : Point ℚ, (!before b a) = true → (!before c b) = true →
      (!before c a) = true := by
    intro a b c
    simp only [not_before_iff]
    exact LexLE.trans
  have htotal : ∀ a b : Point ℚ, ((!before b a) || (!before a b)) = true := by
    intro a b
    rw [Bool.or_eq_true, not_before_iff, not_before_iff]
    exact LexLE.total a b
  exact (List.pairwise_mergeSort htrans htotal l).imp fun h => (not_before_iff _ _).1 h

theorem staircase_paretoPoints (p : Program ℚ) : Staircase p.paretoPoints :=
  staircase_descend (pairwise_sorted _) none

/-- The reference answer lists exactly the Pareto outcomes. -/
theorem mem_paretoPoints_iff (p : Program ℚ) (z : Point ℚ) :
    z ∈ p.paretoPoints ↔ p.IsPareto z := by
  have hmem : ∀ y, y ∈ (p.feasiblePoints.reverse.mergeSort fun a b => !before b a) ↔
      y ∈ p.outcomes := by
    intro y
    rw [(List.mergeSort_perm _ _).mem_iff, List.mem_reverse, mem_feasiblePoints_iff]
  rw [paretoPoints, mem_descend_iff (pairwise_sorted _)]
  simp only [hmem]
  constructor
  · rintro ⟨hz, -, hmin⟩
    exact ⟨hz, hmin⟩
  · rintro ⟨hz, hmin⟩
    exact ⟨hz, (fun _ h => nomatch h), hmin⟩

theorem descend_none_eq_nil_iff {l : List (Point ℚ)} : descend none l = [] ↔ l = [] := by
  cases l with
  | nil => exact Iff.rfl
  | cons z l => simp [descend]

theorem paretoPoints_eq_nil_iff (p : Program ℚ) :
    p.paretoPoints = [] ↔ ¬∃ x, p.Feasible x := by
  have hpoints : p.feasiblePoints = [] ↔ ¬∃ x, p.Feasible x := by
    simp only [List.eq_nil_iff_forall_not_mem, mem_feasiblePoints_iff]
    constructor
    · rintro h ⟨x, hx⟩
      exact h (p.outcome x) ⟨x, hx, rfl⟩
    · rintro h z ⟨x, hx, -⟩
      exact h ⟨x, hx⟩
  rw [paretoPoints, descend_none_eq_nil_iff, ← hpoints, ← List.length_eq_zero_iff,
    List.length_mergeSort, List.length_reverse, List.length_eq_zero_iff]

/-- The reference answer ascends in the first objective and descends in the second. It holds
the outcomes that no other outcome is as small as in both objectives, an outcome being the
snapped pair of sums of an assignment of zeros and ones that meets each row within `10⁻⁹`. It is
empty just if there is no such assignment. -/
theorem paretoPoints_exact (p : Program ℚ) :
    (∀ x, p.Feasible x ↔ x.length = p.dimension ∧ (∀ v ∈ x, v = 0 ∨ v = 1) ∧
      ∀ r ∈ p.rows, r.MetWithin (1 / 10 ^ 9) (dot r.coefs x)) ∧
    (∀ z, z ∈ p.outcomes ↔
      ∃ x, p.Feasible x ∧ z = ⟨Scalar.snap (dot p.c1 x), Scalar.snap (dot p.c2 x)⟩) ∧
    p.paretoPoints.Pairwise (fun y z => y.z1 < z.z1 ∧ z.z2 < y.z2) ∧
    (∀ z, z ∈ p.paretoPoints ↔
      z ∈ p.outcomes ∧ ∀ y ∈ p.outcomes, y ≠ z → ¬(y.z1 ≤ z.z1 ∧ y.z2 ≤ z.z2)) ∧
    (p.paretoPoints = [] ↔ ¬∃ x, p.Feasible x) := by
  refine ⟨p.feasible_iff, fun z => ?_, p.staircase_paretoPoints, fun z => ?_,
    p.paretoPoints_eq_nil_iff⟩
  · exact ⟨fun ⟨x, hx, h⟩ => ⟨x, hx, h.symm⟩, fun ⟨x, hx, h⟩ => ⟨x, hx, h.symm⟩⟩
  · rw [mem_paretoPoints_iff]
    constructor
    · rintro ⟨hz, hmin⟩
      exact ⟨hz, fun y hy hne hle => hne (hmin y hy hle.1 hle.2)⟩
    · rintro ⟨hz, hmin⟩
      refine ⟨hz, fun y hy h1 h2 => ?_⟩
      by_contra hne
      exact hmin y hy hne ⟨h1, h2⟩

end Program

end Biobjective
