import Biobjective.Proofs.Question
import Biobjective.Proofs.SoundFrontier
import Biobjective.Region
import Mathlib.Data.Set.Card

/-!
# Sealed regions

A box is sealed when no feasible outcome sticks out of it to the left or below:
what is within its upper bounds is within its lower bounds too. A solve in a
sealed box therefore finds an outcome that is Pareto among all outcomes, not
only among those of the box. The box between two Pareto outcomes is sealed, and
so are both parts that remain of a sealed box around a Pareto outcome; every
other Pareto outcome of the box lies in one of the parts.

The number of outcomes in a box, its load, shrinks with each split, which bounds
the work for a queue of boxes by `Program.effort`.
-/

namespace Biobjective

namespace Region

def Holds (r : Region ℚ) (z : Point ℚ) : Prop :=
  r.lo1 ≤ z.z1 ∧ z.z1 ≤ r.hi1 ∧ r.lo2 ≤ z.z2 ∧ z.z2 ≤ r.hi2

/-- The bounds are whole numbers. -/
structure Whole (r : Region ℚ) : Prop where
  lo1 : IsWhole r.lo1
  hi1 : IsWhole r.hi1
  lo2 : IsWhole r.lo2
  hi2 : IsWhole r.hi2

theorem Whole.allows_iff {r : Region ℚ} (h : r.Whole) {z : Point ℚ} (hz : z.Whole) :
    ((r.range .first).allows z.z1 = true ∧ (r.range .second).allows z.z2 = true) ↔
      r.Holds z := by
  rw [range, range, Interval.allows_between h.lo1 h.hi1 hz.z1,
    Interval.allows_between h.lo2 h.hi2 hz.z2, and_assoc, Holds]

/-- The bounds are whole, and an outcome within the upper bounds is in the
box. -/
structure Sealed (p : Program ℚ) (r : Region ℚ) : Prop where
  lo1 : IsWhole r.lo1
  hi1 : IsWhole r.hi1
  lo2 : IsWhole r.lo2
  hi2 : IsWhole r.hi2
  lower : ∀ y ∈ p.outcomes, y.z1 ≤ r.hi1 → y.z2 ≤ r.hi2 → r.lo1 ≤ y.z1 ∧ r.lo2 ≤ y.z2

namespace Sealed

theorem allows_iff {p : Program ℚ} (hp : p.WholeObjectives) {r : Region ℚ} (h : r.Sealed p)
    {z : Point ℚ} (hz : z ∈ p.outcomes) :
    ((r.range .first).allows z.z1 = true ∧ (r.range .second).allows z.z2 = true) ↔
      r.Holds z := by
  have hwhole : r.Whole := ⟨h.lo1, h.hi1, h.lo2, h.hi2⟩
  exact hwhole.allows_iff (hp.whole hz)

theorem holds_of_weaklyDominates {p : Program ℚ} {r : Region ℚ} (h : r.Sealed p)
    {y z : Point ℚ} (hy : y ∈ p.outcomes) (hz : r.Holds z) (hyz : WeaklyDominates y z) :
    r.Holds y := by
  obtain ⟨-, hz1, -, hz2⟩ := hz
  obtain ⟨h1, h2⟩ := h.lower y hy (hyz.1.trans hz1) (hyz.2.trans hz2)
  exact ⟨h1, hyz.1.trans hz1, h2, hyz.2.trans hz2⟩

/-- An optimum under positive weights in a sealed box is Pareto. -/
theorem isPareto_of_isBest {p : Program ℚ} (hp : p.WholeObjectives) {r : Region ℚ}
    (h : r.Sealed p) {w : Weights ℚ} (hw1 : 0 < w.w1) (hw2 : 0 < w.w2) {o : Optimum ℚ}
    (ho : IsBest p w (r.range .first) (r.range .second) o) : p.IsPareto o.toPoint := by
  have hholds : r.Holds o.toPoint := (h.allows_iff hp ho.mem).1 ⟨ho.first_allows, ho.second_allows⟩
  refine ⟨ho.mem, fun y hy h1 h2 => ?_⟩
  obtain ⟨hfirst, hsecond⟩ :=
    (h.allows_iff hp hy).2 (h.holds_of_weaklyDominates hy hholds ⟨h1, h2⟩)
  have hle := ho.value_le y hy hfirst hsecond
  rw [ho.value_eq] at hle
  exact w.eq_of_value_le hw1 hw2 h1 h2 hle

theorem ofCorners {p : Program ℚ} (hp : p.WholeObjectives) {left right : Solution ℚ}
    (hleft : p.IsPareto left.toPoint) (hright : p.IsPareto right.toPoint) :
    (Region.ofCorners left right).Sealed p := by
  refine ⟨(hp.whole hleft.mem).z1, (hp.whole hright.mem).z1, (hp.whole hright.mem).z2,
    (hp.whole hleft.mem).z2, fun y hy h1 h2 => ⟨?_, ?_⟩⟩
  · change left.z1 ≤ y.z1
    by_contra hlt
    rw [not_le] at hlt
    rw [hleft.eq_of_weaklyDominates hy ⟨hlt.le, h2⟩] at hlt
    exact lt_irrefl _ hlt
  · change right.z2 ≤ y.z2
    by_contra hlt
    rw [not_le] at hlt
    rw [hright.eq_of_weaklyDominates hy ⟨h1, hlt.le⟩] at hlt
    exact lt_irrefl _ hlt

end Sealed

theorem mem_split_iff {r r' : Region ℚ} {z : Point ℚ} :
    r' ∈ r.split z ↔
      (r.lo1 ≤ z.z1 - 1 ∧ z.z2 + 1 ≤ r.hi2 ∧ ⟨r.lo1, z.z1 - 1, z.z2 + 1, r.hi2⟩ = r') ∨
      (z.z1 + 1 ≤ r.hi1 ∧ r.lo2 ≤ z.z2 - 1 ∧ ⟨z.z1 + 1, r.hi1, r.lo2, z.z2 - 1⟩ = r') := by
  simp only [split, upperLeft?, lowerRight?, List.mem_append, Option.mem_toList,
    Option.ite_none_right_eq_some, Option.some.injEq, and_assoc]

theorem Sealed.split {p : Program ℚ} (hp : p.WholeObjectives) {r : Region ℚ} (h : r.Sealed p)
    {z : Point ℚ} (hz : p.IsPareto z) (hholds : r.Holds z) {r' : Region ℚ}
    (hr' : r' ∈ r.split z) : r'.Sealed p := by
  have hwhole := hp.whole hz.mem
  obtain ⟨-, hz1, -, hz2⟩ := hholds
  rcases mem_split_iff.1 hr' with ⟨-, -, rfl⟩ | ⟨-, -, rfl⟩
  · refine ⟨h.lo1, hwhole.z1.sub isWhole_one, hwhole.z2.add isWhole_one, h.hi2, ?_⟩
    intro y hy h1 h2
    change y.z1 ≤ z.z1 - 1 at h1
    refine ⟨(h.lower y hy (by linarith) h2).1, ?_⟩
    refine hwhole.z2.add_one_le_of_lt (hp.whole hy).z2 (lt_of_not_ge fun hle => ?_)
    rw [hz.eq_of_weaklyDominates hy ⟨by linarith, hle⟩] at h1
    linarith
  · refine ⟨hwhole.z1.add isWhole_one, h.hi1, h.lo2, hwhole.z2.sub isWhole_one, ?_⟩
    intro y hy h1 h2
    change y.z2 ≤ z.z2 - 1 at h2
    refine ⟨?_, (h.lower y hy h1 (by linarith)).2⟩
    refine hwhole.z1.add_one_le_of_lt (hp.whole hy).z1 (lt_of_not_ge fun hle => ?_)
    rw [hz.eq_of_weaklyDominates hy ⟨hle, by linarith⟩] at h2
    linarith

/-- A Pareto outcome of the box other than the one it is split at is in one of
the parts. -/
theorem exists_mem_split {p : Program ℚ} (hp : p.WholeObjectives) {r : Region ℚ} {y z : Point ℚ}
    (hy : p.IsPareto y) (hz : p.IsPareto z) (hry : r.Holds y) (hne : y ≠ z) :
    ∃ r' ∈ r.split z, r'.Holds y := by
  obtain ⟨hlo1, hhi1, hlo2, hhi2⟩ := hry
  have hwy := hp.whole hy.mem
  have hwz := hp.whole hz.mem
  rcases hy.eq_or_descends hz with heq | ⟨h1, h2⟩ | ⟨h1, h2⟩
  · exact absurd heq hne
  · have hstep1 := hwy.z1.add_one_le_of_lt hwz.z1 h1
    have hstep2 := hwz.z2.add_one_le_of_lt hwy.z2 h2
    exact ⟨_, mem_split_iff.2 (Or.inl ⟨by linarith, by linarith, rfl⟩),
      hlo1, by linarith, hstep2, hhi2⟩
  · have hstep1 := hwz.z1.add_one_le_of_lt hwy.z1 h1
    have hstep2 := hwy.z2.add_one_le_of_lt hwz.z2 h2
    exact ⟨_, mem_split_iff.2 (Or.inr ⟨by linarith, by linarith, rfl⟩),
      hstep1, hhi1, hlo2, by linarith⟩

end Region

namespace Program

/-- The number of feasible outcomes with a property. -/
noncomputable def tally (p : Program ℚ) (P : Point ℚ → Prop) : ℕ := {z ∈ p.outcomes | P z}.ncard

theorem finite_tallied (p : Program ℚ) (P : Point ℚ → Prop) : {z ∈ p.outcomes | P z}.Finite :=
  p.finite_outcomes.subset fun _ h => h.1

theorem tally_le (p : Program ℚ) (P : Point ℚ → Prop) : p.tally P ≤ 2 ^ p.dimension := by
  have hsub : {z ∈ p.outcomes | P z} ⊆ p.maskOutcome '' Finset.range (2 ^ p.dimension) := by
    rintro z ⟨hz, -⟩
    obtain ⟨mask, hmask, rfl⟩ := (p.mem_outcomes_iff z).1 hz
    exact ⟨mask, Finset.mem_coe.2 (Finset.mem_range.2 hmask.1), rfl⟩
  have hfinite := Finset.finite_toSet (Finset.range (2 ^ p.dimension))
  calc p.tally P ≤ (p.maskOutcome '' Finset.range (2 ^ p.dimension)).ncard :=
        Set.ncard_le_ncard hsub (hfinite.image _)
    _ ≤ (Finset.range (2 ^ p.dimension) : Set ℕ).ncard := Set.ncard_image_le hfinite
    _ = 2 ^ p.dimension := by rw [Set.ncard_coe_finset, Finset.card_range]

theorem tally_pos {p : Program ℚ} {P : Point ℚ → Prop} {z : Point ℚ} (hz : z ∈ p.outcomes)
    (h : P z) : 0 < p.tally P :=
  (Set.ncard_pos (p.finite_tallied P)).2 ⟨z, hz, h⟩

theorem tally_add_tally_le {p : Program ℚ} {P Q R : Point ℚ → Prop} (hPQ : ∀ z, P z → ¬Q z)
    (hP : ∀ z, P z → R z) (hQ : ∀ z, Q z → R z) : p.tally P + p.tally Q ≤ p.tally R := by
  have hdisjoint : Disjoint {z ∈ p.outcomes | P z} {z ∈ p.outcomes | Q z} := by
    rw [Set.disjoint_left]
    intro z hz hz'
    exact hPQ z hz.2 hz'.2
  rw [tally, tally, ← Set.ncard_union_eq hdisjoint (p.finite_tallied P) (p.finite_tallied Q)]
  refine Set.ncard_le_ncard ?_ (p.finite_tallied R)
  rintro z (⟨hz, h⟩ | ⟨hz, h⟩)
  · exact ⟨hz, hP z h⟩
  · exact ⟨hz, hQ z h⟩

theorem tally_le_add {p : Program ℚ} {P Q R : Point ℚ → Prop} (h : ∀ z, R z → P z ∨ Q z) :
    p.tally R ≤ p.tally P + p.tally Q := by
  refine le_trans (Set.ncard_le_ncard ?_ ((p.finite_tallied P).union (p.finite_tallied Q)))
    (Set.ncard_union_le _ _)
  rintro z ⟨hz, hR⟩
  exact (h z hR).imp (fun hP => ⟨hz, hP⟩) fun hQ => ⟨hz, hQ⟩

/-- The number of outcomes in a box. -/
noncomputable def load (p : Program ℚ) (r : Region ℚ) : ℕ := p.tally r.Holds

/-- A bound for the number of solves that a queue of boxes takes. -/
noncomputable def effort (p : Program ℚ) (queue : List (Region ℚ)) : ℕ :=
  (queue.map fun r => 2 * p.load r + 1).sum

theorem effort_cons (p : Program ℚ) (r : Region ℚ) (queue : List (Region ℚ)) :
    p.effort (r :: queue) = 2 * p.load r + 1 + p.effort queue := by
  rw [effort, List.map_cons, List.sum_cons, effort]

theorem effort_append (p : Program ℚ) (queue queue' : List (Region ℚ)) :
    p.effort (queue ++ queue') = p.effort queue + p.effort queue' := by
  rw [effort, List.map_append, List.sum_append, effort, effort]

theorem effort_perm (p : Program ℚ) {queue queue' : List (Region ℚ)} (h : queue.Perm queue') :
    p.effort queue = p.effort queue' :=
  (h.map _).sum_eq

theorem effort_toList_ite_le (p : Program ℚ) (c : Prop) [Decidable c] (r : Region ℚ) :
    p.effort (if c then some r else none).toList ≤ 2 * p.load r + 1 := by
  by_cases h : c
  · rw [if_pos h, Option.toList_some, effort_cons]
    exact le_rfl
  · rw [if_neg h]
    exact Nat.zero_le _

theorem load_add_load_lt {p : Program ℚ} {r : Region ℚ} {z : Point ℚ} (hz : z ∈ p.outcomes)
    (hr : r.Holds z) :
    p.load ⟨r.lo1, z.z1 - 1, z.z2 + 1, r.hi2⟩ + p.load ⟨z.z1 + 1, r.hi1, r.lo2, z.z2 - 1⟩ <
      p.load r := by
  obtain ⟨hlo1, hhi1, hlo2, hhi2⟩ := hr
  have hparts : p.load ⟨r.lo1, z.z1 - 1, z.z2 + 1, r.hi2⟩ +
      p.load ⟨z.z1 + 1, r.hi1, r.lo2, z.z2 - 1⟩ ≤ p.tally fun y => r.Holds y ∧ y ≠ z := by
    refine tally_add_tally_le ?_ ?_ ?_
    · rintro y ⟨-, h1, -, -⟩ ⟨h2, -, -, -⟩
      linarith
    · rintro y ⟨h1, h2, h3, h4⟩
      refine ⟨⟨h1, by linarith, by linarith, h4⟩, ?_⟩
      rintro rfl
      linarith
    · rintro y ⟨h1, h2, h3, h4⟩
      refine ⟨⟨by linarith, h2, h3, by linarith⟩, ?_⟩
      rintro rfl
      linarith
  have hrest : (p.tally fun y => r.Holds y ∧ y ≠ z) + p.tally (fun y => y = z) ≤ p.load r := by
    refine tally_add_tally_le (fun y hy => hy.2) (fun y hy => hy.1) ?_
    rintro y rfl
    exact ⟨hlo1, hhi1, hlo2, hhi2⟩
  have hpos : 0 < p.tally fun y => y = z := tally_pos hz rfl
  omega

theorem effort_split_lt {p : Program ℚ} {r : Region ℚ} {z : Point ℚ} (hz : z ∈ p.outcomes)
    (hr : r.Holds z) : p.effort (r.split z) < 2 * p.load r + 1 := by
  have hload := load_add_load_lt hz hr
  have hleft := p.effort_toList_ite_le (r.lo1 ≤ z.z1 - 1 ∧ z.z2 + 1 ≤ r.hi2)
    ⟨r.lo1, z.z1 - 1, z.z2 + 1, r.hi2⟩
  have hright := p.effort_toList_ite_le (z.z1 + 1 ≤ r.hi1 ∧ r.lo2 ≤ z.z2 - 1)
    ⟨z.z1 + 1, r.hi1, r.lo2, z.z2 - 1⟩
  rw [Region.split, effort_append, Region.upperLeft?, Region.lowerRight?]
  omega

/-- The outcomes from a first objective on, those beyond it counted twice. -/
noncomputable def ahead (p : Program ℚ) (x : ℚ) : ℕ :=
  p.tally (fun z => x ≤ z.z1) + p.tally fun z => x < z.z1

theorem ahead_le (p : Program ℚ) (x : ℚ) : p.ahead x ≤ 2 * 2 ^ p.dimension := by
  have h1 := p.tally_le fun z => x ≤ z.z1
  have h2 := p.tally_le fun z => x < z.z1
  rw [ahead]
  omega

/-- Neighbouring boxes share a corner only, so the loads of all of them add up. -/
theorem load_add_ahead_le (p : Program ℚ) {left right : Solution ℚ} (h : left.z1 < right.z1) :
    p.load (.ofCorners left right) + p.ahead right.z1 ≤ p.ahead left.z1 := by
  have hbox : p.load (.ofCorners left right) ≤ p.tally (fun z => left.z1 ≤ z.z1 ∧ z.z1 < right.z1) +
      p.tally fun z => left.z1 < z.z1 ∧ z.z1 ≤ right.z1 := by
    refine tally_le_add ?_
    rintro z ⟨h1, h2, -, -⟩
    rcases eq_or_lt_of_le h1 with heq | hlt
    · exact Or.inl ⟨h1, lt_of_le_of_lt heq.ge h⟩
    · exact Or.inr ⟨hlt, h2⟩
  have hclosed : p.tally (fun z => left.z1 ≤ z.z1 ∧ z.z1 < right.z1) +
      p.tally (fun z => right.z1 ≤ z.z1) ≤ p.tally fun z => left.z1 ≤ z.z1 :=
    tally_add_tally_le (fun _ hz => not_le.2 hz.2) (fun _ hz => hz.1) fun _ hz => h.le.trans hz
  have hopen : p.tally (fun z => left.z1 < z.z1 ∧ z.z1 ≤ right.z1) +
      p.tally (fun z => right.z1 < z.z1) ≤ p.tally fun z => left.z1 < z.z1 :=
    tally_add_tally_le (fun _ hz => not_lt.2 hz.2) (fun _ hz => hz.1) fun _ hz => h.trans hz
  rw [ahead, ahead]
  omega

end Program

end Biobjective
