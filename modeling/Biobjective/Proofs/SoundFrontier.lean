import Biobjective.Proofs.Chain

/-!
# Sound frontiers

A frontier is sound when the retained solutions are a staircase of Pareto
outcomes. An update keeps it sound under the one condition that whatever
dominates the new outcome is the outcome itself or dominated in turn by what is
retained: then the new outcome is Pareto, or it is turned away. Since Pareto
outcomes are never dominated, no update loses a point.
-/

namespace Biobjective

theorem WeaklyDominates.antisymm {y z : Point ℚ} (hyz : WeaklyDominates y z)
    (hzy : WeaklyDominates z y) : y = z :=
  Point.eq_of_of .first (le_antisymm hyz.1 hzy.1) (le_antisymm hyz.2 hzy.2)

namespace Program

theorem IsPareto.eq_of_weaklyDominates {p : Program ℚ} {y z : Point ℚ} (hz : p.IsPareto z)
    (hy : y ∈ p.outcomes) (hyz : WeaklyDominates y z) : y = z :=
  hz.eq_of_le y hy hyz.1 hyz.2

/-- Two Pareto outcomes are equal or stand on different steps. -/
theorem IsPareto.eq_or_descends {p : Program ℚ} {y z : Point ℚ} (hy : p.IsPareto y)
    (hz : p.IsPareto z) : y = z ∨ Descends y z ∨ Descends z y := by
  by_cases h1 : y.z1 < z.z1
  · by_cases h2 : z.z2 < y.z2
    · exact Or.inr (Or.inl ⟨h1, h2⟩)
    · exact Or.inl (hz.eq_of_weaklyDominates hy.mem ⟨h1.le, not_lt.1 h2⟩)
  · by_cases h2 : y.z2 < z.z2
    · rcases eq_or_lt_of_le (not_lt.1 h1) with heq | hlt
      · exact Or.inl (hz.eq_of_weaklyDominates hy.mem ⟨heq.ge, h2.le⟩)
      · exact Or.inr (Or.inr ⟨hlt, h2⟩)
    · exact Or.inl (hy.eq_of_weaklyDominates hz.mem ⟨not_lt.1 h1, not_lt.1 h2⟩).symm

end Program

namespace Frontier

/-- The retained solutions are a staircase of Pareto outcomes, and the tolerance
cannot confuse two whole numbers. -/
structure Sound (p : Program ℚ) (f : Frontier ℚ) : Prop where
  staircase : Staircase f.points
  pareto : ∀ z ∈ f.points, p.IsPareto z
  eps_nonneg : 0 ≤ f.eps
  eps_lt_one : f.eps < 1

theorem mem_points {f : Frontier ℚ} {s : Solution ℚ} (hs : s ∈ f.all) : s.toPoint ∈ f.points :=
  List.mem_map_of_mem hs

theorem Sound.covers_iff {p : Program ℚ} (hp : p.WholeObjectives) {f : Frontier ℚ}
    (h : f.Sound p) {s t : Solution ℚ} (hs : s.toPoint ∈ p.outcomes)
    (ht : t.toPoint ∈ p.outcomes) :
    Solution.covers f.eps s t = true ↔ WeaklyDominates s.toPoint t.toPoint :=
  Solution.covers_iff_of_whole h.eps_nonneg h.eps_lt_one (hp.whole hs).z1 (hp.whole hs).z2
    (hp.whole ht).z1 (hp.whole ht).z2

/-- The frontier `f'` is sound and has come from `f` by updates. -/
structure Extends (p : Program ℚ) (f f' : Frontier ℚ) : Prop where
  sound : f'.Sound p
  supported_eq : f'.supported = f.supported
  subset : ∀ z ∈ f.points, z ∈ f'.points

theorem Sound.extends_self {p : Program ℚ} {f : Frontier ℚ} (h : f.Sound p) : f.Extends p f :=
  ⟨h, rfl, fun _ hz => hz⟩

theorem Extends.trans {p : Program ℚ} {f f' f'' : Frontier ℚ} (h : f.Extends p f')
    (h' : f'.Extends p f'') : f.Extends p f'' :=
  ⟨h'.sound, h'.supported_eq.trans h.supported_eq, fun z hz => h'.subset z (h.subset z hz)⟩

/-- What dominates `z` is `z` itself or dominated by what is retained. -/
def Foreseen (p : Program ℚ) (f : Frontier ℚ) (z : Point ℚ) : Prop :=
  ∀ y ∈ p.outcomes, WeaklyDominates y z → y = z ∨ ∃ e ∈ f.points, WeaklyDominates e y

/-- An update with a foreseen outcome keeps the frontier sound and loses no
point, and then something retained dominates the outcome. -/
theorem Sound.update {p : Program ℚ} (hp : p.WholeObjectives) {f : Frontier ℚ} (h : f.Sound p)
    {s : Solution ℚ} (hs : s.toPoint ∈ p.outcomes) (hforeseen : f.Foreseen p s.toPoint) :
    f.Extends p (f.update s).2 ∧ ∃ e ∈ (f.update s).2.points, WeaklyDominates e s.toPoint := by
  have hall : ∀ e ∈ f.all, e.toPoint ∈ p.outcomes := fun e he => (h.pareto _ (mem_points he)).mem
  rcases f.update_cases h.eps_nonneg h.staircase s with
    ⟨heq, e, he, hcovers⟩ | ⟨-, hstair, hmem, hsub, hdropped⟩
  · rw [heq]
    exact ⟨h.extends_self, e.toPoint, mem_points he, (h.covers_iff hp (hall e he) hs).1 hcovers⟩
  · -- what is retained and dominates the new member has the same point
    have hsame : ∀ e ∈ f.all, WeaklyDominates e.toPoint s.toPoint → e.toPoint = s.toPoint := by
      intro e he hes
      rcases hdropped e he with hkept | hcovers
      · exact hstair.eq_of_weaklyDominates (mem_points hkept) (mem_points hmem) hes
      · exact hes.antisymm ((h.covers_iff hp hs (hall e he)).1 hcovers)
    have hpareto : p.IsPareto s.toPoint := by
      refine ⟨hs, fun y hy h1 h2 => ?_⟩
      rcases hforeseen y hy ⟨h1, h2⟩ with rfl | ⟨z, hz, hzy⟩
      · rfl
      · obtain ⟨e, he, rfl⟩ := List.mem_map.1 hz
        have hes := hsame e he (hzy.trans ⟨h1, h2⟩)
        rw [hes] at hzy
        exact WeaklyDominates.antisymm ⟨h1, h2⟩ hzy
    refine ⟨⟨⟨hstair, ?_, ?_, ?_⟩, f.update_supported s, ?_⟩, s.toPoint, mem_points hmem,
      le_rfl, le_rfl⟩
    · intro z hz
      obtain ⟨e, he, rfl⟩ := List.mem_map.1 hz
      rcases hsub e he with rfl | he
      · exact hpareto
      · exact h.pareto _ (mem_points he)
    · rw [update_eps]
      exact h.eps_nonneg
    · rw [update_eps]
      exact h.eps_lt_one
    · intro z hz
      obtain ⟨e, he, rfl⟩ := List.mem_map.1 hz
      rcases hdropped e he with hkept | hcovers
      · exact mem_points hkept
      · rw [← (h.pareto _ hz).eq_of_weaklyDominates hs ((h.covers_iff hp hs (hall e he)).1 hcovers)]
        exact mem_points hmem

theorem Sound.mem_of_weaklyDominates {p : Program ℚ} {f : Frontier ℚ} (h : f.Sound p)
    {z : Point ℚ} (hz : p.IsPareto z) (hdom : ∃ e ∈ f.points, WeaklyDominates e z) :
    z ∈ f.points := by
  obtain ⟨e, he, hez⟩ := hdom
  rw [← hz.eq_of_weaklyDominates (h.pareto e he).mem hez]
  exact he

/-- A frontier that retains a chain is sound. -/
theorem Sound.of_chain {p : Program ℚ} {f : Frontier ℚ} (hchain : Chain p f.supported)
    (hall : f.all = f.supported) (h0 : 0 ≤ f.eps) (h1 : f.eps < 1) : f.Sound p := by
  refine ⟨?_, ?_, h0, h1⟩
  · rw [points, hall]
    exact hchain.staircase
  · intro z hz
    rw [points, hall] at hz
    obtain ⟨s, hs, rfl⟩ := List.mem_map.1 hz
    exact (hchain.supported s hs).isPareto

end Frontier

end Biobjective
