import Biobjective.Proofs.SealedRegion
import Mathlib.Algebra.Order.BigOperators.Group.List

/-!
# The tree of regions

When the answer about a box depends on the box alone, the boxes that come from
splitting form a tree that is fixed before any of them is looked at: below a box
are its parts around the point found in it. A box is at least one unit wider than
its parts together, so the tree is finite, and `Region.visits` lists it. The points
found in its boxes differ pairwise in the first objective.
-/

namespace Biobjective

/-- The solution that an answer brings. -/
def Answer.solution? (keepDecisions : Bool) : Answer ℚ → Option (Solution ℚ)
  | .optimal best => some (best.toSolution false keepDecisions)
  | .infeasible => none
  | .timedOut _ => none

namespace Region

namespace Whole

theorem ofCorners {left right : Solution ℚ} (hleft : left.toPoint.Whole)
    (hright : right.toPoint.Whole) : (Region.ofCorners left right).Whole :=
  ⟨hleft.z1, hright.z1, hright.z2, hleft.z2⟩

theorem split {r r' : Region ℚ} (h : r.Whole) {z : Point ℚ} (hz : z.Whole)
    (hr' : r' ∈ r.split z) : r'.Whole := by
  rcases mem_split_iff.1 hr' with ⟨-, -, rfl⟩ | ⟨-, -, rfl⟩
  · exact ⟨h.lo1, hz.z1.sub isWhole_one, hz.z2.add isWhole_one, h.hi2⟩
  · exact ⟨hz.z1.add isWhole_one, h.hi1, h.lo2, hz.z2.sub isWhole_one⟩

end Whole

/-- The number of whole first objectives in a box of whole bounds. -/
def width (r : Region ℚ) : ℕ := ⌊r.hi1 - r.lo1 + 1⌋₊

theorem width_eq_toNat {r : Region ℚ} {lo hi : ℤ} (hlo : r.lo1 = lo) (hhi : r.hi1 = hi) :
    r.width = (hi - lo + 1).toNat := by
  have hcast : (hi : ℚ) - lo + 1 = ((hi - lo + 1 : ℤ) : ℚ) := by push_cast; ring
  rw [width, hlo, hhi, hcast, ← Int.floor_toNat, Int.floor_intCast]

/-- The parts of a box, counted with their boxes below, are less than the box. -/
theorem sum_width_split_le {r : Region ℚ} (hr : r.Whole) {z : Point ℚ} (hz : z.Whole)
    (hholds : r.Holds z) : ((r.split z).map fun r' => 2 * r'.width + 1).sum ≤ 2 * r.width := by
  obtain ⟨lo, hlo⟩ := hr.lo1
  obtain ⟨hi, hhi⟩ := hr.hi1
  obtain ⟨m, hm⟩ := hz.z1
  obtain ⟨h1, h2, -, -⟩ := hholds
  rw [← hlo, ← hm, Int.cast_le] at h1
  rw [← hhi, ← hm, Int.cast_le] at h2
  have hwidth := width_eq_toNat hlo.symm hhi.symm
  have hleft : ∀ lo2 hi2, (Region.mk r.lo1 (z.z1 - 1) lo2 hi2).width = (m - 1 - lo + 1).toNat :=
    fun lo2 hi2 => width_eq_toNat hlo.symm (by rw [← hm]; push_cast; rfl)
  have hright : ∀ lo2 hi2, (Region.mk (z.z1 + 1) r.hi1 lo2 hi2).width = (hi - (m + 1) + 1).toNat :=
    fun lo2 hi2 => width_eq_toNat (by rw [← hm]; push_cast; rfl) hhi.symm
  rw [split, upperLeft?, lowerRight?]
  split_ifs <;> simp [hleft, hright] <;> omega

theorem bounds_of_mem_split {r r' : Region ℚ} {z : Point ℚ} (hz : r.Holds z) (hr' : r' ∈ r.split z) :
    r.lo1 ≤ r'.lo1 ∧ r'.hi1 ≤ r.hi1 ∧ (r'.hi1 < z.z1 ∨ z.z1 < r'.lo1) := by
  obtain ⟨hlo, hhi, -, -⟩ := hz
  rcases mem_split_iff.1 hr' with ⟨-, -, rfl⟩ | ⟨-, -, rfl⟩
  · exact ⟨le_rfl, by linarith, Or.inl (sub_one_lt _)⟩
  · exact ⟨by linarith, le_rfl, Or.inr (lt_add_one _)⟩

/-- The parts of a box lie apart, from the left. -/
theorem pairwise_split (r : Region ℚ) (z : Point ℚ) :
    (r.split z).Pairwise fun r1 r2 => r1.hi1 < r2.lo1 := by
  rw [split, upperLeft?, lowerRight?]
  split_ifs <;> simp
  linarith

/-- The answers about boxes never give up, and an optimum in a box of whole bounds
is a whole point of the box. -/
structure Truthful (ask : Region ℚ → Answer ℚ) : Prop where
  not_timedOut : ∀ r nodes, ask r ≠ .timedOut nodes
  whole : ∀ r best, r.Whole → ask r = .optimal best → best.toPoint.Whole
  holds : ∀ r best, r.Whole → ask r = .optimal best → r.Holds best.toPoint

/-- The boxes that remain after the answer about a box. -/
def parts (ask : Region ℚ → Answer ℚ) (r : Region ℚ) : List (Region ℚ) :=
  match ask r with
  | .optimal best => r.split best.toPoint
  | .infeasible => []
  | .timedOut _ => []

theorem parts_eq_split {ask : Region ℚ → Answer ℚ} {r : Region ℚ} {best : Optimum ℚ}
    (h : ask r = .optimal best) : r.parts ask = r.split best.toPoint := by
  rw [parts, h]

theorem parts_eq_nil {ask : Region ℚ → Answer ℚ} {r : Region ℚ} (h : ask r = .infeasible) :
    r.parts ask = [] := by
  rw [parts, h]

/-- A box and the boxes below it, down to a depth. -/
def explore (ask : Region ℚ → Answer ℚ) : ℕ → Region ℚ → List (Region ℚ)
  | 0, _ => []
  | depth + 1, r => r :: (r.parts ask).flatMap (explore ask depth)

/-- A box and all boxes below it. -/
def visits (ask : Region ℚ → Answer ℚ) (r : Region ℚ) : List (Region ℚ) :=
  explore ask (r.width + 1) r

/-- The solutions found in a box and in the boxes below it. -/
def finds (ask : Region ℚ → Answer ℚ) (keepDecisions : Bool) (r : Region ℚ) :
    List (Solution ℚ) :=
  (r.visits ask).filterMap fun r' => (ask r').solution? keepDecisions

namespace Truthful

variable {ask : Region ℚ → Answer ℚ} (h : Truthful ask)

include h

theorem sum_width_parts_le {r : Region ℚ} (hr : r.Whole) :
    ((r.parts ask).map fun r' => 2 * r'.width + 1).sum ≤ 2 * r.width := by
  cases hask : ask r with
  | optimal best =>
      rw [parts_eq_split hask]
      exact sum_width_split_le hr (h.whole r best hr hask) (h.holds r best hr hask)
  | infeasible =>
      rw [parts_eq_nil hask]
      exact Nat.zero_le _
  | timedOut nodes => exact absurd hask (h.not_timedOut r nodes)

theorem whole_of_mem_parts {r r' : Region ℚ} (hr : r.Whole) (hr' : r' ∈ r.parts ask) :
    r'.Whole := by
  cases hask : ask r with
  | optimal best =>
      rw [parts_eq_split hask] at hr'
      exact hr.split (h.whole r best hr hask) hr'
  | infeasible =>
      rw [parts_eq_nil hask] at hr'
      exact absurd hr' List.not_mem_nil
  | timedOut nodes => exact absurd hask (h.not_timedOut r nodes)

theorem width_lt_of_mem_parts {r r' : Region ℚ} (hr : r.Whole) (hr' : r' ∈ r.parts ask) :
    r'.width < r.width := by
  have hle := List.le_sum_of_mem (List.mem_map_of_mem (f := fun r' => 2 * r'.width + 1) hr')
  have hsum := h.sum_width_parts_le hr
  omega

/-- Below the width there are no further boxes. -/
theorem explore_eq {depth depth' : ℕ} {r : Region ℚ} (hr : r.Whole) (hd : r.width < depth)
    (hd' : r.width < depth') : explore ask depth r = explore ask depth' r := by
  induction depth generalizing depth' r with
  | zero => exact absurd hd (Nat.not_lt_zero _)
  | succ depth ih =>
      cases depth' with
      | zero => exact absurd hd' (Nat.not_lt_zero _)
      | succ depth' =>
          rw [explore, explore]
          refine congrArg (List.cons r) (List.flatMap_congr fun r' hr' => ?_)
          have hlt := h.width_lt_of_mem_parts hr hr'
          exact ih (h.whole_of_mem_parts hr hr') (by omega) (by omega)

theorem visits_eq {r : Region ℚ} (hr : r.Whole) :
    r.visits ask = r :: (r.parts ask).flatMap (visits ask) := by
  rw [visits, explore]
  refine congrArg (List.cons r) (List.flatMap_congr fun r' hr' => ?_)
  exact h.explore_eq (h.whole_of_mem_parts hr hr') (h.width_lt_of_mem_parts hr hr')
    (Nat.lt_succ_self _)

theorem length_visits_le {r : Region ℚ} (hr : r.Whole) :
    (r.visits ask).length ≤ 2 * r.width + 1 := by
  induction hn : r.width using Nat.strong_induction_on generalizing r with
  | _ n ih =>
      subst hn
      have hparts : ∀ r' ∈ r.parts ask, (r'.visits ask).length ≤ 2 * r'.width + 1 :=
        fun r' hr' => ih _ (h.width_lt_of_mem_parts hr hr') (h.whole_of_mem_parts hr hr') rfl
      rw [h.visits_eq hr, List.length_cons, List.length_flatMap]
      exact Nat.succ_le_succ ((List.sum_le_sum hparts).trans (h.sum_width_parts_le hr))

/-- Taking a box off a queue and adding its parts takes one visit off. -/
theorem perm_visits_of_pop {r : Region ℚ} (hr : r.Whole) {queue rest : List (Region ℚ)}
    (hperm : (r :: rest).Perm queue) :
    (r :: (rest ++ r.parts ask).flatMap (visits ask)).Perm (queue.flatMap (visits ask)) := by
  refine List.Perm.trans ?_ (hperm.flatMap_right _)
  rw [List.flatMap_cons, h.visits_eq hr, List.flatMap_append, List.cons_append]
  exact List.perm_append_comm.cons r

theorem finds_eq (keepDecisions : Bool) {r : Region ℚ} (hr : r.Whole) :
    r.finds ask keepDecisions =
      ((ask r).solution? keepDecisions).toList ++
        (r.parts ask).flatMap (finds ask keepDecisions) := by
  rw [finds, h.visits_eq hr, List.filterMap_cons, List.filterMap_flatMap]
  cases (ask r).solution? keepDecisions with
  | none => rfl
  | some s => rfl

/-- What is found below a box is in its range of the first objective, where no
value comes twice. -/
theorem finds_spread (keepDecisions : Bool) {r : Region ℚ} (hr : r.Whole) :
    (∀ s ∈ r.finds ask keepDecisions, s.toPoint.Whole ∧ r.lo1 ≤ s.z1 ∧ s.z1 ≤ r.hi1) ∧
      (r.finds ask keepDecisions).Pairwise fun s t => s.z1 ≠ t.z1 := by
  induction hn : r.width using Nat.strong_induction_on generalizing r with
  | _ n ih =>
      subst hn
      have hparts := fun r' (hr' : r' ∈ r.parts ask) =>
        ih _ (h.width_lt_of_mem_parts hr hr') (h.whole_of_mem_parts hr hr') rfl
      rw [h.finds_eq keepDecisions hr]
      cases hask : ask r with
      | infeasible =>
          rw [parts_eq_nil hask]
          exact ⟨fun s hs => absurd hs List.not_mem_nil, List.Pairwise.nil⟩
      | timedOut nodes => exact absurd hask (h.not_timedOut r nodes)
      | optimal best =>
          have hwhole := h.whole r best hr hask
          have hholds := h.holds r best hr hask
          rw [parts_eq_split hask] at hparts ⊢
          have hbelow : ∀ s ∈ (r.split best.toPoint).flatMap (finds ask keepDecisions),
              s.toPoint.Whole ∧ r.lo1 ≤ s.z1 ∧ s.z1 ≤ r.hi1 ∧ best.z1 ≠ s.z1 := by
            intro s hs
            obtain ⟨r', hr', hs⟩ := List.mem_flatMap.1 hs
            obtain ⟨hswhole, hlo, hhi⟩ := (hparts r' hr').1 s hs
            obtain ⟨hlo', hhi', hside⟩ := bounds_of_mem_split hholds hr'
            refine ⟨hswhole, hlo'.trans hlo, hhi.trans hhi', fun heq => ?_⟩
            rcases hside with hside | hside
            · linarith
            · linarith
          refine ⟨fun s hs => ?_, List.pairwise_cons.2 ⟨fun s hs => (hbelow s hs).2.2.2,
            List.pairwise_flatMap.2 ⟨fun r' hr' => (hparts r' hr').2, ?_⟩⟩⟩
          · rcases List.mem_cons.1 hs with rfl | hs
            · exact ⟨hwhole, hholds.1, hholds.2.1⟩
            · obtain ⟨hswhole, hlo, hhi, -⟩ := hbelow s hs
              exact ⟨hswhole, hlo, hhi⟩
          · refine (pairwise_split r best.toPoint).imp_of_mem fun hr1 hr2 hlt s hs t ht => ?_
            exact (lt_of_le_of_lt ((hparts _ hr1).1 s hs).2.2
              (lt_of_lt_of_le hlt ((hparts _ hr2).1 t ht).2.1)).ne

end Truthful

end Region

end Biobjective
