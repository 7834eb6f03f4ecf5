import Biobjective.Proofs.Insertion
import Biobjective.Ranking

/-!
# The cutoff of ranking

Ranking stops once the value has reached the worst nadir of the gaps in its box. A point
between two members of a staircase that no member dominates lies in a gap between neighbours,
to the left of the gap's right end and below its left end, so under positive weights its value
is below the nadir of that gap, and the gap is one of those that the worst nadir is taken over.
Hence a value that has reached the worst nadir leaves nothing to be found:
`Ranking.cutoff_hides_nothing`.

Among whole points an insertion takes nothing away from what the members dominate. So each gap
that it leaves has its right end no farther to the right, and its left end no higher, than some
gap that was there before, and the worst nadir can only go down. Insertions add up, so a value
that has once reached the worst nadir has reached it for good: `Ranking.cutoff_only_tightens`.
-/

namespace Biobjective

namespace Frontier

variable {f : Frontier ℚ} {a b z : Point ℚ}

/-- What holds of the first objectives up to some value, at one member and not at another, ceases
to hold in a gap between neighbours that is itself between the two. -/
theorem exists_gap_crossing (hf : Staircase f.points) (ha : a ∈ f.points) (hb : b ∈ f.points)
    {P : ℚ → Prop} (hP : ∀ x y, x ≤ y → P y → P x) (hPa : P a.z1) (hPb : ¬P b.z1) :
    ∃ cd ∈ neighbours f.all, a.z1 ≤ cd.1.z1 ∧ cd.2.z1 ≤ b.z1 ∧ P cd.1.z1 ∧ ¬P cd.2.z1 := by
  have hascends : f.all.Pairwise fun s t => s.z1 < t.z1 :=
    (f.staircase_points_iff.1 hf).imp And.left
  obtain ⟨sa, hsa, rfl⟩ := List.mem_map.1 ha
  obtain ⟨sb, hsb, rfl⟩ := List.mem_map.1 hb
  obtain ⟨cd, hcd, hc, hd⟩ : ∃ cd ∈ neighbours f.all, P cd.1.z1 ∧ ¬P cd.2.z1 := by
    cases hall : f.all with
    | nil =>
        rw [hall] at hsa
        exact absurd hsa List.not_mem_nil
    | cons s l =>
        rw [hall] at hsa hsb hascends
        have hs : s.z1 ≤ sa.z1 := by
          rcases List.mem_cons.1 hsa with rfl | hsa
          · exact le_rfl
          · exact ((List.pairwise_cons.1 hascends).1 sa hsa).le
        exact exists_neighbours_crossing (fun t => P t.z1) (hP _ _ hs hPa) ⟨sb, hsb, hPb⟩
  refine ⟨cd, hcd, ?_, ?_, hc, hd⟩
  · rcases le_or_le_of_mem_neighbours (fun t => t.z1) hascends hcd hsa with hle | hle
    · exact hle
    · exact absurd (hP _ _ hle hPa) hd
  · rcases le_or_le_of_mem_neighbours (fun t => t.z1) hascends hcd hsb with hle | hle
    · exact absurd (hP _ _ hle hc) hPb
    · exact hle

/-- A point between two members that no member dominates lies in a gap between neighbours
that is itself between the two. -/
theorem exists_gap (hf : Staircase f.points) (ha : a ∈ f.points) (hb : b ∈ f.points)
    (hz : ∀ e ∈ f.points, ¬WeaklyDominates e z) (h1 : a.z1 ≤ z.z1) (h2 : z.z1 < b.z1) :
    ∃ cd ∈ neighbours f.all, a.z1 ≤ cd.1.z1 ∧ cd.2.z1 ≤ b.z1 ∧ z.z1 < cd.2.z1 ∧ z.z2 < cd.1.z2 := by
  obtain ⟨cd, hcd, hlo, hhi, hc, hd⟩ := exists_gap_crossing hf ha hb (P := fun x => x ≤ z.z1)
    (fun _ _ hxy hy => hxy.trans hy) h1 (not_le.2 h2)
  have hbelow : z.z2 < cd.1.z2 := by
    by_contra hle
    exact hz _ (mem_points (mem_of_mem_neighbours hcd).1) ⟨hc, not_lt.1 hle⟩
  exact ⟨cd, hcd, hlo, hhi, not_le.1 hd, hbelow⟩

/-- Under positive weights such a point has a value below the worst nadir between the two
members. -/
theorem value_lt_nadirWithin? (hf : Staircase f.points) (ha : a ∈ f.points) (hb : b ∈ f.points)
    (hz : ∀ e ∈ f.points, ¬WeaklyDominates e z) (h1 : a.z1 ≤ z.z1) (h2 : z.z1 < b.z1)
    {w : Weights ℚ} (hw1 : 0 < w.w1) (hw2 : 0 < w.w2) :
    ∃ worst, f.nadirWithin? w a.z1 b.z1 = some worst ∧ w.value z < worst := by
  obtain ⟨cd, hcd, hlo, hhi, hright, hbelow⟩ := exists_gap hf ha hb hz h1 h2
  obtain ⟨worst, hworst, hle⟩ := le_nadirWithin? hf w hcd hlo hhi
  refine ⟨worst, hworst, ?_⟩
  calc w.value z = w.w1 * z.z1 + w.w2 * z.z2 := rfl
    _ < w.w1 * cd.2.z1 + w.w2 * cd.1.z2 :=
        add_lt_add (mul_lt_mul_of_pos_left hright hw1) (mul_lt_mul_of_pos_left hbelow hw2)
    _ ≤ worst := hle

def DominatedBy (f f' : Frontier ℚ) : Prop :=
  ∀ e ∈ f.all, ∃ d ∈ f'.all, WeaklyDominates d.toPoint e.toPoint

variable {f' : Frontier ℚ}

/-- A gap of a frontier that dominates `f` is no wider and no higher than some gap of `f`. -/
theorem DominatedBy.exists_wider_gap (h : f.DominatedBy f') (hf : Staircase f.points)
    (hf' : Staircase f'.points) (ha : a ∈ f.points) (hb : b ∈ f.points)
    {gap : Solution ℚ × Solution ℚ} (hgap : gap ∈ neighbours f'.all) (hlo : a.z1 ≤ gap.1.z1)
    (hhi : gap.2.z1 ≤ b.z1) :
    ∃ cd ∈ neighbours f.all, a.z1 ≤ cd.1.z1 ∧ cd.2.z1 ≤ b.z1 ∧
      gap.2.z1 ≤ cd.2.z1 ∧ gap.1.z2 ≤ cd.1.z2 := by
  rw [staircase_points_iff] at hf'
  have hwidth : gap.1.z1 < gap.2.z1 := (rel_of_mem_neighbours hf' hgap).1
  obtain ⟨cd, hcd, hlo', hhi', hc, hd⟩ := exists_gap_crossing hf ha hb
    (P := fun x => x < gap.2.z1) (fun _ _ hxy hy => hxy.trans_lt hy) (hlo.trans_lt hwidth)
    (not_lt.2 hhi)
  -- What dominates the left end of the old gap comes before the right end of the new one, and so
  -- not after the left end.
  obtain ⟨d, hdmem, hdom⟩ := h cd.1 (mem_of_mem_neighbours hcd).1
  have hleft : d.z1 ≤ gap.1.z1 := by
    rcases le_or_le_of_mem_neighbours (fun t => t.z1) (hf'.imp And.left) hgap hdmem with hle | hle
    · exact hle
    · exact absurd (hdom.1.trans_lt hc) (not_lt.2 hle)
  have habove : gap.1.z2 ≤ d.z2 := by
    have hstairs : Staircase f'.points := (f'.staircase_points_iff).2 hf'
    rcases hstairs.eq_or_descends (mem_points hdmem)
      (mem_points (mem_of_mem_neighbours hgap).1) with heq | hdescends | hdescends
    · exact (congrArg Point.z2 heq).ge
    · exact hdescends.2.le
    · exact absurd hdescends.1 (not_lt.2 hleft)
  exact ⟨cd, hcd, hlo', hhi', not_lt.1 hd, habove.trans hdom.2⟩

theorem DominatedBy.nadirWithin?_le (h : f.DominatedBy f') (hf : Staircase f.points)
    (hf' : Staircase f'.points) (ha : a ∈ f.points) (hb : b ∈ f.points) (ha' : a ∈ f'.points)
    (hb' : b ∈ f'.points) (hlt : a.z1 < b.z1) {w : Weights ℚ} (hw1 : 0 < w.w1) (hw2 : 0 < w.w2) :
    ∃ before after, f.nadirWithin? w a.z1 b.z1 = some before ∧
      f'.nadirWithin? w a.z1 b.z1 = some after ∧ after ≤ before := by
  obtain ⟨gap, hgap, hlo, hhi, -, -⟩ := exists_gap_crossing hf' ha' hb' (P := fun x => x ≤ a.z1)
    (fun _ _ hxy hy => hxy.trans hy) le_rfl (not_le.2 hlt)
  obtain ⟨after, hafter, -⟩ := le_nadirWithin? hf' w hgap hlo hhi
  obtain ⟨worst, hworst, hlo, hhi, rfl⟩ := exists_of_nadirWithin?_eq_some hafter
  obtain ⟨cd, hcd, hlo', hhi', hright, hbelow⟩ := h.exists_wider_gap hf hf' ha hb hworst hlo hhi
  obtain ⟨before, hbefore, hle⟩ := le_nadirWithin? hf w hcd hlo' hhi'
  refine ⟨before, _, hbefore, hafter, ?_⟩
  calc w.w1 * worst.2.z1 + w.w2 * worst.1.z2
      ≤ w.w1 * cd.2.z1 + w.w2 * cd.1.z2 :=
        add_le_add (mul_le_mul_of_nonneg_left hright hw1.le)
          (mul_le_mul_of_nonneg_left hbelow hw2.le)
    _ ≤ before := hle

/-- Among solutions for which the tolerance decides nothing, insertions keep a staircase and what
it dominates. -/
theorem dominatedBy_updateAll {P : Solution ℚ → Prop} (hsharp : Solution.Sharp f.eps P)
    (hf : Stairs P f.all) {l : List (Solution ℚ)} (hl : ∀ s ∈ l, P s) :
    Stairs P (f.updateAll l).all ∧ f.DominatedBy (f.updateAll l) := by
  have hfold : ∀ all, Stairs P all → Stairs P (l.foldl (absorb f.eps) all) ∧
      ∀ z, (∃ d ∈ all, WeaklyDominates d.toPoint z) →
        ∃ d ∈ l.foldl (absorb f.eps) all, WeaklyDominates d.toPoint z := by
    induction l with
    | nil => exact fun all hall => ⟨hall, fun z hz => hz⟩
    | cons s l ih =>
        intro all hall
        have hs : P s := hl s List.mem_cons_self
        obtain ⟨hstairs, hkeeps⟩ := ih (fun t ht => hl t (List.mem_cons_of_mem _ ht))
          (absorb f.eps all s) (stairs_absorb hsharp hall hs)
        refine ⟨hstairs, fun z hz => hkeeps z ?_⟩
        exact (exists_mem_absorb_iff hsharp hall hs z).2 (Or.inl hz)
  obtain ⟨hstairs, hkeeps⟩ := hfold f.all hf
  rw [← updateAll_all] at hstairs hkeeps
  exact ⟨hstairs, fun e he => hkeeps e.toPoint ⟨e, he, le_rfl, le_rfl⟩⟩

end Frontier

namespace Ranking

structure Within (cur next : Solution ℚ) (z : Point ℚ) : Prop where
  left : cur.z1 ≤ z.z1
  right : z.z1 ≤ next.z1
  lower : next.z2 ≤ z.z2
  upper : z.z2 ≤ cur.z2

/-- A point of the box is dominated by its lower right corner, or lies to the left of it. -/
theorem Within.z1_lt {cur next : Solution ℚ} {z : Point ℚ} (h : Within cur next z)
    (hz : ¬WeaklyDominates next.toPoint z) : z.z1 < next.z1 := by
  by_contra hle
  exact hz ⟨not_lt.1 hle, h.lower⟩

/-- Between two members of a staircase a point that no member dominates has a value below the
worst nadir of the box, under the weights of the chord. So if no point that is left in the box
has a value below some value, and that value has reached the worst nadir, then a member
dominates each of them, and an update turns it away. -/
theorem cutoff_hides_nothing {f : Frontier ℚ} (hf : Staircase f.points) {cur next : Solution ℚ}
    (hcur : cur ∈ f.all) (hnext : next ∈ f.all) (hlt : cur.z1 < next.z1) :
    let w := cur.chord next
    let nadir? := f.nadirWithin? w cur.z1 next.z1
    (∀ z, Within cur next z → (∀ e ∈ f.all, ¬WeaklyDominates e.toPoint z) →
      ∃ worst, nadir? = some worst ∧ w.value z < worst) ∧
    ∀ (rest : Set (Point ℚ)) (value : ℚ), (∀ z ∈ rest, Within cur next z) →
      (∀ z ∈ rest, value ≤ w.value z) → reached value nadir? = true →
      ∀ s : Solution ℚ, s.toPoint ∈ rest →
        (∃ e ∈ f.all, WeaklyDominates e.toPoint s.toPoint) ∧
          (0 ≤ f.eps → f.update s = (false, f)) := by
  intro w nadir?
  have hdescends : Descends cur.toPoint next.toPoint :=
    hf.descends_of_lt (Frontier.mem_points hcur) (Frontier.mem_points hnext) hlt
  have hbelow : ∀ z, Within cur next z → (∀ e ∈ f.all, ¬WeaklyDominates e.toPoint z) →
      ∃ worst, nadir? = some worst ∧ w.value z < worst := by
    intro z hwithin hfree
    have hpoints : ∀ e ∈ f.points, ¬WeaklyDominates e z := List.forall_mem_map.2 hfree
    exact Frontier.value_lt_nadirWithin? hf (Frontier.mem_points hcur) (Frontier.mem_points hnext)
      hpoints hwithin.left (hwithin.z1_lt (hfree next hnext)) (sub_pos.2 hdescends.2)
      (sub_pos.2 hdescends.1)
  refine ⟨hbelow, fun rest value hrest hleast hreached s hs => ?_⟩
  have hdominated : ∃ e ∈ f.all, WeaklyDominates e.toPoint s.toPoint := by
    by_contra hfree
    push Not at hfree
    obtain ⟨worst, hworst, hlt⟩ := hbelow s.toPoint (hrest _ hs) hfree
    rw [hworst, reached, decide_eq_true_eq] at hreached
    exact absurd (hleast _ hs) (not_le.2 (hlt.trans_le hreached))
  exact ⟨hdominated, fun heps => Frontier.update_of_weaklyDominates heps hf hdominated⟩

/-- On five steps, for the box from the second to the fourth: a point before the third step is
below the worst nadir, and one beyond it has reached the nadir, though the gaps outside the box
have larger ones. -/
theorem cutoff_hides_nothing_fiveSteps :
    let f : Frontier ℚ :=
      { all := [⟨⟨-5, 20⟩, true, []⟩, ⟨⟨0, 10⟩, true, []⟩, ⟨⟨5, 5⟩, false, []⟩,
          ⟨⟨10, 0⟩, true, []⟩, ⟨⟨20, -5⟩, true, []⟩]
        eps := 1 / 10 }
    let cur : Solution ℚ := ⟨⟨0, 10⟩, true, []⟩
    let next : Solution ℚ := ⟨⟨10, 0⟩, true, []⟩
    let late : Solution ℚ := ⟨⟨6, 9⟩, false, []⟩
    Staircase f.points ∧
      (∃ worst, f.nadirWithin? (cur.chord next) cur.z1 next.z1 = some worst ∧
        (cur.chord next).value ⟨4, 6⟩ < worst) ∧
      f.update late = (false, f) := by
  intro f cur next late
  have hf : Staircase f.points := by
    norm_num [f, Frontier.points, Staircase, Descends]
  have hcur : cur ∈ f.all := by simp [f, cur]
  have hnext : next ∈ f.all := by simp [f, next]
  obtain ⟨hbelow, hrest⟩ := cutoff_hides_nothing hf hcur hnext (by norm_num [cur, next])
  refine ⟨hf, hbelow ⟨4, 6⟩ ?_ ?_, ?_⟩
  · constructor <;> norm_num [cur, next]
  · norm_num [f, WeaklyDominates]
  · refine (hrest {late.toPoint} 150 ?_ ?_ (by decide +kernel) late rfl).2 (by norm_num [f])
    · rintro z rfl
      constructor <;> norm_num [cur, next, late]
    · rintro z rfl
      norm_num [Solution.chord, Weights.value, cur, next, late]

/-- Between two members of a staircase of whole points that stay, an insertion of a whole point
lowers the worst nadir or leaves it. A value that has reached the worst nadir has still reached it
after any number of such insertions. -/
theorem cutoff_only_tightens {f : Frontier ℚ} (h0 : 0 ≤ f.eps) (h1 : f.eps < 1)
    (hf : WholeStairs f.all) {cur next : Solution ℚ} (hcur : cur ∈ f.all) (hnext : next ∈ f.all)
    (hlt : cur.z1 < next.z1) {w : Weights ℚ} (hw1 : 0 < w.w1) (hw2 : 0 < w.w2) :
    (∀ s : Solution ℚ, s.toPoint.Whole → cur ∈ (f.update s).2.all → next ∈ (f.update s).2.all →
      ∃ before after, f.nadirWithin? w cur.z1 next.z1 = some before ∧
        (f.update s).2.nadirWithin? w cur.z1 next.z1 = some after ∧ after ≤ before) ∧
    ∀ l : List (Solution ℚ), (∀ s ∈ l, s.toPoint.Whole) → cur ∈ (f.updateAll l).all →
      next ∈ (f.updateAll l).all → ∀ value,
        reached value (f.nadirWithin? w cur.z1 next.z1) = true →
          reached value ((f.updateAll l).nadirWithin? w cur.z1 next.z1) = true := by
  have hle : ∀ l : List (Solution ℚ), (∀ s ∈ l, s.toPoint.Whole) → cur ∈ (f.updateAll l).all →
      next ∈ (f.updateAll l).all →
      ∃ before after, f.nadirWithin? w cur.z1 next.z1 = some before ∧
        (f.updateAll l).nadirWithin? w cur.z1 next.z1 = some after ∧ after ≤ before := by
    intro l hl hcur' hnext'
    obtain ⟨hstairs, hdominated⟩ :=
      Frontier.dominatedBy_updateAll (Solution.sharp_whole h0 h1) hf hl
    exact hdominated.nadirWithin?_le (f.staircase_points_iff.2 hf.descends)
      ((f.updateAll l).staircase_points_iff.2 hstairs.descends) (Frontier.mem_points hcur)
      (Frontier.mem_points hnext) (Frontier.mem_points hcur') (Frontier.mem_points hnext') hlt
      hw1 hw2
  refine ⟨fun s hs => hle [s] (List.forall_mem_singleton.2 hs), ?_⟩
  intro l hl hcur' hnext' value hreached
  obtain ⟨before, after, hbefore, hafter, htighter⟩ := hle l hl hcur' hnext'
  rw [hbefore, reached, decide_eq_true_eq] at hreached
  rw [hafter, reached, decide_eq_true_eq]
  exact htighter.trans hreached

/-- A point that displaces the two middle ones of four steps lowers the worst nadir of the box,
and a value that had reached it before has reached it afterwards. -/
theorem cutoff_only_tightens_fourSteps :
    let cur : Solution ℚ := ⟨⟨0, 10⟩, true, []⟩
    let next : Solution ℚ := ⟨⟨10, 0⟩, true, []⟩
    let f : Frontier ℚ :=
      { all := [cur, ⟨⟨5, 5⟩, true, []⟩, ⟨⟨6, 4⟩, false, []⟩, next], eps := 1 / 10 }
    let s : Solution ℚ := ⟨⟨3, 3⟩, false, []⟩
    let w := cur.chord next
    WholeStairs f.all ∧ (f.update s).2.all = [cur, s, next] ∧
      (∃ before after, f.nadirWithin? w cur.z1 next.z1 = some before ∧
        (f.update s).2.nadirWithin? w cur.z1 next.z1 = some after ∧ after ≤ before) ∧
      reached 150 ((f.updateAll [s]).nadirWithin? w cur.z1 next.z1) = true := by
  intro cur next f s w
  have hwhole : ∀ x y : ℤ, (⟨x, y⟩ : Point ℚ).Whole := fun x y => ⟨⟨x, rfl⟩, ⟨y, rfl⟩⟩
  have hf : WholeStairs f.all := by
    refine ⟨by norm_num [f, cur, next, Descends], ?_⟩
    simp only [f, List.forall_mem_cons]
    exact ⟨hwhole 0 10, hwhole 5 5, hwhole 6 4, hwhole 10 0, List.forall_mem_nil _⟩
  have hall : (f.update s).2.all = [cur, s, next] := by decide +kernel
  have hcur : cur ∈ (f.update s).2.all := by simp [hall]
  have hnext : next ∈ (f.update s).2.all := by simp [hall]
  have hw1 : 0 < w.w1 := by norm_num [w, cur, next, Solution.chord]
  have hw2 : 0 < w.w2 := by norm_num [w, cur, next, Solution.chord]
  have hlt : cur.z1 < next.z1 := by norm_num [cur, next]
  have hcur' : cur ∈ f.all := by simp [f]
  have hnext' : next ∈ f.all := by simp [f]
  have h0 : 0 ≤ f.eps := by norm_num [f]
  have h1 : f.eps < 1 := by norm_num [f]
  obtain ⟨hstep, hrun⟩ := cutoff_only_tightens h0 h1 hf hcur' hnext' hlt hw1 hw2
  refine ⟨hf, hall, hstep s (hwhole 3 3) hcur hnext, ?_⟩
  exact hrun [s] (List.forall_mem_singleton.2 (hwhole 3 3)) hcur hnext 150 (by decide +kernel)

end Ranking

end Biobjective
