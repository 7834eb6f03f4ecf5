import Biobjective.Proofs.Question
import Biobjective.Proofs.SupportedPoint

/-!
# What the anchors are

An anchor takes two solves. The first one finds the least level of its first
objective, and the second one the least value of the other objective at that
level: among whole numbers, a cap of at most half a unit above the level leaves
only the level itself. So the anchor is the lexicographic minimum, and the cap
is released again whatever the second answer is.
-/

namespace Biobjective

namespace Anchor

theorem value_weightsOf (i : Objective) (z : Point ℚ) :
    (weightsOf i : Weights ℚ).value z = i.of z := by
  cases i with
  | first => simp [weightsOf, Weights.value, Objective.of]
  | second => simp [weightsOf, Weights.value, Objective.of]

theorem value_levelWeights (a : Anchor) (z : Point ℚ) :
    (a.levelWeights : Weights ℚ).value z = a.primary.of z :=
  value_weightsOf _ z

theorem value_tieWeights (a : Anchor) (z : Point ℚ) :
    (a.tieWeights : Weights ℚ).value z = a.primary.other.of z := by
  cases a with
  | upperLeft => exact value_weightsOf _ z
  | lowerRight => exact value_weightsOf _ z

/-- The ranges while the anchor's first objective is capped. -/
def capped (a : Anchor) (cap : ℚ) (i : Objective) : Interval ℚ :=
  if i = a.primary then ⟨none, some cap⟩ else .unbounded

theorem allows_capped_iff (a : Anchor) (cap : ℚ) (z : Point ℚ) :
    ((a.capped cap .first).allows z.z1 = true ∧ (a.capped cap .second).allows z.z2 = true) ↔
      (Interval.mk none (some cap)).allows (a.primary.of z) = true := by
  cases a with
  | upperLeft => simp [capped, primary, Objective.of]
  | lowerRight => simp [capped, primary, Objective.of]

theorem follow_bound_primary (a : Anchor) (p : Program ℚ) (limit? : Option ℕ) (w : Weights ℚ)
    (cap : ℚ) :
    (asking p limit? w .unbounded .unbounded).follow (.bound a.primary ⟨none, some cap⟩) =
      asking p limit? w (a.capped cap .first) (a.capped cap .second) := by
  cases a <;> rfl

theorem follow_clear_primary (a : Anchor) (p : Program ℚ) (limit? : Option ℕ) (w : Weights ℚ)
    (cap : ℚ) :
    (asking p limit? w (a.capped cap .first) (a.capped cap .second)).follow (.clear a.primary) =
      asking p limit? w .unbounded .unbounded := by
  cases a <;> rfl

/-- The second of an anchor's two optima is the lexicographic minimum. -/
theorem isLexMin_of_isBest {p : Program ℚ} (hp : p.WholeObjectives) (a : Anchor) {tie : ℚ}
    (h0 : 0 ≤ tie) (h1 : tie ≤ 1 / 2) {level best : Optimum ℚ}
    (hlevel : IsBest p a.levelWeights .unbounded .unbounded level)
    (hbest : IsBest p a.tieWeights (a.capped (a.primary.of level.toPoint + tie) .first)
      (a.capped (a.primary.of level.toPoint + tie) .second) best) :
    p.IsLexMin a.primary best.toPoint := by
  have hcap : ∀ y ∈ p.outcomes,
      ((a.capped (a.primary.of level.toPoint + tie) .first).allows y.z1 = true ∧
        (a.capped (a.primary.of level.toPoint + tie) .second).allows y.z2 = true) ↔
      a.primary.of y ≤ a.primary.of level.toPoint := by
    intro y hy
    rw [a.allows_capped_iff, Interval.allows_cap ((hp.whole hlevel.mem).of _)
      ((hp.whole hy).of _) h0 h1]
  have hleast : ∀ y ∈ p.outcomes, a.primary.of level.toPoint ≤ a.primary.of y := by
    intro y hy
    have h := hlevel.value_le y hy (by simp) (by simp)
    rwa [hlevel.value_eq, value_levelWeights, value_levelWeights] at h
  have heq : a.primary.of best.toPoint = a.primary.of level.toPoint :=
    le_antisymm ((hcap _ hbest.mem).1 ⟨hbest.first_allows, hbest.second_allows⟩)
      (hleast _ hbest.mem)
  refine ⟨hbest.mem, ?_⟩
  intro y hy
  rw [heq]
  rcases eq_or_lt_of_le (hleast y hy) with hlevely | hlt
  · obtain ⟨hf, hs⟩ := (hcap y hy).2 hlevely.ge
    have h := hbest.value_le y hy hf hs
    rw [hbest.value_eq, value_tieWeights, value_tieWeights] at h
    exact Or.inr ⟨hlevely, h⟩
  · exact Or.inl hlt

open Phase in
/-- An anchor is found with two solves and leaves the ranges released. -/
theorem ensures_find {p : Program ℚ} (hp : p.WholeObjectives) {cfg : Config ℚ}
    (h0 : 0 ≤ cfg.tolerances.tie) (h1 : cfg.tolerances.tie ≤ 1 / 2) {c : Clock}
    {limit? : Option ℕ} (a : Anchor) {weights : Weights ℚ} {q : Progress ℚ}
    {w : World ℚ (Enumerator ℚ)} {k : ℕ}
    (hw : InForce (asking p limit? weights .unbounded .unbounded) w) (hroom : q.Room p (k + 2)) :
    Ensures (Enumerator.oracle p) c (a.find cfg) q w
      (fun s q' w' => p.IsLexMin a.primary s.toPoint ∧ q'.frontier = q.frontier ∧
        q'.work.calls = q.work.calls + 2 ∧ q'.Room p k ∧
        ∃ weights', InForce (asking p limit? weights' .unbounded .unbounded) w')
      (fun cut q' w' => q'.frontier = q.frontier ∧ q'.Room p k ∧ Excluding p limit? [] w' ∧
        Excused p cfg c limit? cut) := by
  simp only [find, ensures_bind, ensures_tell]
  refine ensures_solve (e := asking p limit? a.levelWeights .unbounded .unbounded)
    (hw.tell p _) hroom ?_
  intro answer w1 hanswer hw1 hroom1
  rcases outcome_of_answers hanswer with ⟨level, rfl, hlevel⟩ | ⟨rfl, hnone⟩ | ⟨nodes, rfl, hlim⟩
  · rw [ensures_demand_optimal]
    refine ensures_checkTime_of
      (fun h => ⟨rfl, hroom1.mono (Nat.le_succ k), ⟨_, _, _, hw1⟩, .timeout h⟩) ?_
    have hw2 := ((hw1.time c).tell p
      (.bound a.primary ⟨none, some (a.primary.of level.toPoint + cfg.tolerances.tie)⟩)).tell p
      (.weights a.tieWeights)
    rw [follow_bound_primary] at hw2
    refine ensures_solve (e := asking p limit? a.tieWeights
      (a.capped (a.primary.of level.toPoint + cfg.tolerances.tie) .first)
      (a.capped (a.primary.of level.toPoint + cfg.tolerances.tie) .second)) hw2 hroom1 ?_
    intro answer w3 hanswer hw3 hroom3
    have hw4 := hw3.tell p (.clear a.primary)
    rw [follow_clear_primary] at hw4
    rcases outcome_of_answers hanswer with ⟨best, rfl, hbest⟩ | ⟨rfl, hnone⟩ | ⟨nodes, rfl, hlim⟩
    · rw [ensures_demand_optimal, ensures_pure]
      exact ⟨isLexMin_of_isBest hp a h0 h1 hlevel hbest, rfl, rfl, hroom3, _, hw4⟩
    · -- the level itself passes under the cap
      refine absurd ?_ (hnone _ hlevel.mem)
      rw [a.allows_capped_iff, Interval.allows_cap ((hp.whole hlevel.mem).of _)
        ((hp.whole hlevel.mem).of _) h0 h1]
    · rw [ensures_demand_timedOut]
      exact ⟨rfl, hroom3, ⟨_, _, _, hw4⟩, .timeout (not_unhindered_of_limit hlim)⟩
  · rw [ensures_demand_infeasible]
    refine ⟨rfl, hroom1.mono (Nat.le_succ k), ⟨_, _, _, hw1⟩, .infeasible _ ?_⟩
    refine Set.eq_empty_iff_forall_notMem.2 fun y hy => hnone y hy ⟨by simp, by simp⟩
  · rw [ensures_demand_timedOut]
    exact ⟨rfl, hroom1.mono (Nat.le_succ k), ⟨_, _, _, hw1⟩,
      .timeout (not_unhindered_of_limit hlim)⟩

end Anchor

end Biobjective
