import Biobjective.Proofs.Gap
import Biobjective.Proofs.NadirCutoff

/-!
# What the second phase by ranking finds

The assignments excluded so far are spent: something retained dominates the
outcome of each of them. So an outcome that dominates a new optimum of the box
is the optimum itself or is dominated by something retained, and an update
keeps the frontier sound. The same holds of the exclusions made in earlier
boxes.

Ranking stops when the value reaches the worst nadir of the box. A Pareto
outcome that was not found then would lie in the gap between two retained
neighbours and have a value below the nadir of that gap, which the optimum
cannot exceed.

Each solve but the last one of a box excludes a further mask, which bounds the
solves of all boxes together.
-/

namespace Biobjective

/-- What can be enumerated can be held in a list. -/
theorem Program.not_maxLength_lt {K : Type} (p : Program K) : ¬maxLength < p.dimension := by
  have hmax : maxVariables ≤ maxLength := by decide
  exact not_lt.2 (p.c1_length_le.trans hmax)

namespace Ranking

/-- The excluded masks are those of the program, listed once each, and something
retained dominates the outcome of each. -/
structure Spent (p : Program ℚ) (f : Frontier ℚ) (masks : List ℕ) : Prop where
  nodup : masks.Nodup
  lt : ∀ m ∈ masks, m < 2 ^ p.dimension
  dominated : ∀ m ∈ masks, ∃ e ∈ f.points, WeaklyDominates e (p.maskOutcome m)

namespace Spent

theorem nil (p : Program ℚ) (f : Frontier ℚ) : Spent p f [] :=
  ⟨List.nodup_nil, fun _ h => absurd h List.not_mem_nil, fun _ h => absurd h List.not_mem_nil⟩

theorem length_le {p : Program ℚ} {f : Frontier ℚ} {masks : List ℕ} (h : Spent p f masks) :
    masks.length ≤ 2 ^ p.dimension := by
  have hsub : masks ⊆ List.range (2 ^ p.dimension) := fun m hm => List.mem_range.2 (h.lt m hm)
  simpa using (h.nodup.subperm hsub).length_le

theorem cons {p : Program ℚ} {f f' : Frontier ℚ} {masks : List ℕ} (h : Spent p f masks)
    (hext : f.Extends p f') {mask : ℕ} (hmask : p.FeasibleMask mask) (hnot : mask ∉ masks)
    (hdom : ∃ e ∈ f'.points, WeaklyDominates e (p.maskOutcome mask)) :
    Spent p f' (mask :: masks) := by
  refine ⟨List.nodup_cons.2 ⟨hnot, h.nodup⟩, List.forall_mem_cons.2 ⟨hmask.1, h.lt⟩,
    List.forall_mem_cons.2 ⟨hdom, fun m hm => ?_⟩⟩
  obtain ⟨e, he, hem⟩ := h.dominated m hm
  exact ⟨e, hext.subset e he, hem⟩

/-- A Pareto outcome that is not retained has a mask that is not excluded. -/
theorem exists_mask_notMem {p : Program ℚ} {f : Frontier ℚ} {masks : List ℕ}
    (h : Spent p f masks) (hf : f.Sound p) {z : Point ℚ} (hz : p.IsPareto z)
    (hnot : z ∉ f.points) : ∃ m, p.FeasibleMask m ∧ m ∉ masks ∧ p.maskOutcome m = z := by
  obtain ⟨m, hm, rfl⟩ := (p.mem_outcomes_iff z).1 hz.mem
  exact ⟨m, hm, fun hmem => hnot (hf.mem_of_weaklyDominates hz (h.dominated m hmem)), rfl⟩

end Spent

/-- The box between two neighbours less its outer edges. -/
def inner (a b : Solution ℚ) : Region ℚ := ⟨a.z1, b.z1 - 1, b.z2, a.z2 - 1⟩

theorem sealed_inner {p : Program ℚ} (hp : p.WholeObjectives) {a b : Solution ℚ}
    (ha : p.IsPareto a.toPoint) (hb : p.IsPareto b.toPoint) : (inner a b).Sealed p := by
  have hbox := Region.Sealed.ofCorners hp ha hb
  refine ⟨hbox.lo1, hbox.hi1.sub isWhole_one, hbox.lo2, hbox.hi2.sub isWhole_one, ?_⟩
  intro y hy h1 h2
  change y.z1 ≤ b.z1 - 1 at h1
  change y.z2 ≤ a.z2 - 1 at h2
  exact hbox.lower y hy (show y.z1 ≤ b.z1 by linarith) (show y.z2 ≤ a.z2 by linarith)

theorem holds_inner {p : Program ℚ} (hp : p.WholeObjectives) {a b : Solution ℚ}
    (ha : p.IsPareto a.toPoint) (hb : p.IsPareto b.toPoint) {z : Point ℚ} (hz : p.IsPareto z)
    (h1 : a.z1 < z.z1) (h2 : z.z1 < b.z1) : (inner a b).Holds z := by
  have hright := (hp.whole hz.mem).z1.add_one_le_of_lt (hp.whole hb.mem).z1 h2
  have hbelow := (hp.whole hz.mem).z2.add_one_le_of_lt (hp.whole ha.mem).z2
    (ha.descends_of_lt hz h1).2
  refine ⟨h1.le, ?_, (hz.descends_of_lt hb h2).2.le, ?_⟩
  · change z.z1 ≤ b.z1 - 1
    linarith
  · change z.z2 ≤ a.z2 - 1
    linarith

/-- The stopping rule: once the least value of what was not found reaches the
worst nadir, nothing is left to be found. -/
theorem closes_of_reached {p : Program ℚ} {f : Frontier ℚ} (hf : f.Sound p) {a b : Solution ℚ}
    (ha : a.toPoint ∈ f.points) (hb : b.toPoint ∈ f.points) {w : Weights ℚ} (hw1 : 0 < w.w1)
    (hw2 : 0 < w.w2) {value : ℚ} (hreached : reached value (f.nadirWithin? w a.z1 b.z1) = true)
    (hleast : ∀ z, p.IsPareto z → z ∉ f.points → a.z1 < z.z1 → z.z1 < b.z1 → value ≤ w.value z) :
    f.Closes p (a, b) := by
  intro z hz h1 h2
  by_contra hnot
  have hfree : ∀ e ∈ f.points, ¬WeaklyDominates e z := fun e he hdom =>
    hnot (hf.mem_of_weaklyDominates hz ⟨e, he, hdom⟩)
  obtain ⟨worst, hworst, hlt⟩ :=
    Frontier.value_lt_nadirWithin? hf.staircase ha hb hfree h1.le h2 hw1 hw2
  rw [hworst, reached, decide_eq_true_eq] at hreached
  exact absurd (hleast z hz hnot h1 h2) (not_le.2 (hlt.trans_le hreached))

/-- An optimum of the box is foreseen: what dominates it is not excluded, and
then not smaller in value, or it is spent. -/
theorem foreseen_of_isFound {p : Program ℚ} {f : Frontier ℚ} {masks : List ℕ}
    (hspent : Spent p f masks) (hp : p.WholeObjectives) {r : Region ℚ} (hr : r.Sealed p)
    {w : Weights ℚ} (hw1 : 0 < w.w1) (hw2 : 0 < w.w2) {mask : ℕ} {best : Optimum ℚ}
    (hbest : IsFound p w (r.range .first) (r.range .second) masks mask best) :
    f.Foreseen p best.toPoint := by
  have hmem : best.toPoint ∈ p.outcomes := by
    rw [hbest.toPoint_eq]
    exact hbest.feasible.maskOutcome_mem
  have hholds := (hr.allows_iff hp hmem).1 ⟨hbest.first_allows, hbest.second_allows⟩
  intro y hy hdom
  have hry := (hr.allows_iff hp hy).2 (hr.holds_of_weaklyDominates hy hholds hdom)
  obtain ⟨m, hm, rfl⟩ := (p.mem_outcomes_iff y).1 hy
  by_cases hmasks : m ∈ masks
  · exact Or.inr (hspent.dominated m hmasks)
  · have hle := hbest.value_le m hm hmasks hry.1 hry.2
    rw [hbest.value_eq] at hle
    exact Or.inl (w.eq_of_value_le hw1 hw2 hdom.1 hdom.2 hle)

/-- What is left to the later boxes: the exclusions in force are spent, and there
is room for the masks that are not excluded and for `k` solves more. -/
def Ready (p : Program ℚ) (limit? : Option ℕ) (k : ℕ) (q : Progress ℚ)
    (w : World ℚ (Enumerator ℚ)) : Prop :=
  ∃ masks, Spent p q.frontier masks ∧ q.Room p (k + (2 ^ p.dimension - masks.length)) ∧
    Excluding p limit? masks w

section Drain

variable {p : Program ℚ} {cfg : Config ℚ} {c : Clock} {limit? : Option ℕ} {a b : Solution ℚ}
variable {k fuel : ℕ} {masks : List ℕ} {q : Progress ℚ} {w : World ℚ (Enumerator ℚ)}

/-- While the box between `a` and `b` is ranked, both stay in a sound frontier, and the excluded
masks are spent. -/
structure Underway (p : Program ℚ) (a b : Solution ℚ) (masks : List ℕ) (f : Frontier ℚ) :
    Prop where
  sound : f.Sound p
  left : a.toPoint ∈ f.points
  right : b.toPoint ∈ f.points
  spent : Spent p f masks

namespace Underway

variable {f : Frontier ℚ}

/-- A Pareto outcome inside the gap that is not retained is admitted. -/
theorem exists_admitted (h : Underway p a b masks f) (hp : p.WholeObjectives)
    (hinner : (inner a b).Sealed p) {z : Point ℚ} (hz : p.IsPareto z) (hnot : z ∉ f.points)
    (h1 : a.z1 < z.z1) (h2 : z.z1 < b.z1) :
    ∃ m, p.FeasibleMask m ∧ m ∉ masks ∧ p.maskOutcome m = z ∧
      ((inner a b).range .first).allows z.z1 = true ∧
      ((inner a b).range .second).allows z.z2 = true := by
  obtain ⟨m, hm, hmasks, heq⟩ := h.spent.exists_mask_notMem h.sound hz hnot
  have hholds := holds_inner hp (h.sound.pareto _ h.left) (h.sound.pareto _ h.right) hz h1 h2
  exact ⟨m, hm, hmasks, heq, (hinner.allows_iff hp hz.mem).2 hholds⟩

/-- To take an optimum in and exclude its mask keeps the ranking under way. -/
theorem update (h : Underway p a b masks f) (hp : p.WholeObjectives)
    (hinner : (inner a b).Sealed p) (hab : Descends a.toPoint b.toPoint) {mask : ℕ}
    {best : Optimum ℚ} (hbest : IsFound p (a.chord b) ((inner a b).range .first)
      ((inner a b).range .second) masks mask best) {s : Solution ℚ}
    (hs : s.toPoint = best.toPoint) :
    f.Extends p (f.update s).2 ∧ Underway p a b (mask :: masks) (f.update s).2 := by
  have hmem : best.toPoint ∈ p.outcomes := by
    rw [hbest.toPoint_eq]
    exact hbest.feasible.maskOutcome_mem
  have hforeseen := foreseen_of_isFound h.spent hp hinner (sub_pos.2 hab.2) (sub_pos.2 hab.1) hbest
  rw [← hs] at hmem hforeseen
  obtain ⟨hext, hdom⟩ := h.sound.update hp hmem hforeseen
  rw [hs, hbest.toPoint_eq] at hdom
  exact ⟨hext, hext.sound, hext.subset _ h.left, hext.subset _ h.right,
    h.spent.cons hext hbest.feasible hbest.not_mem hdom⟩

end Underway

/-- The box between `a` and `b` was ranked from the frontier `f`, to its end if nothing hindered
it. -/
structure Drained (p : Program ℚ) (cfg : Config ℚ) (c : Clock) (limit? : Option ℕ)
    (a b : Solution ℚ) (k : ℕ) (f : Frontier ℚ) (status : Status) (q : Progress ℚ)
    (w : World ℚ (Enumerator ℚ)) : Prop where
  grown : f.Extends p q.frontier
  closed : status = .completed → q.frontier.Closes p (a, b)
  completed : Unhindered cfg c limit? → status = .completed
  ready : Ready p limit? k q w

/-- With this fuel the box between `a` and `b` is ranked, unless the fuel is less than the masks
that are not excluded. -/
def Drains (p : Program ℚ) (cfg : Config ℚ) (c : Clock) (limit? : Option ℕ) (a b : Solution ℚ)
    (k fuel : ℕ) : Prop :=
  ∀ {masks : List ℕ} {q : Progress ℚ} {w : World ℚ (Enumerator ℚ)},
    Underway p a b masks q.frontier →
    InForce (excluding p limit? (a.chord b) ((inner a b).range .first) ((inner a b).range .second)
      masks) w →
    q.Room p (k + (2 ^ p.dimension - masks.length) + 1) →
    Phase.Ensures (Enumerator.oracle p) c (drain cfg (a.chord b) a.z1 b.z1 fuel) q w
      (Drained p cfg c limit? a b k q.frontier)
      (fun _ _ _ => fuel ≤ 2 ^ p.dimension - masks.length)

/-- The round of an optimum that has reached the worst nadir. -/
theorem Underway.drained_of_reached (h : Underway p a b masks q.frontier)
    (hp : p.WholeObjectives) (hinner : (inner a b).Sealed p) (hab : Descends a.toPoint b.toPoint)
    {mask : ℕ} {best : Optimum ℚ} (hbest : IsFound p (a.chord b) ((inner a b).range .first)
      ((inner a b).range .second) masks mask best)
    (hreached : reached best.value (q.frontier.nadirWithin? (a.chord b) a.z1 b.z1) = true)
    (hready : Ready p limit? k q w) :
    Drained p cfg c limit? a b k q.frontier .completed q w := by
  refine ⟨h.sound.extends_self, fun _ => ?_, fun _ => rfl, hready⟩
  refine closes_of_reached h.sound h.left h.right (sub_pos.2 hab.2) (sub_pos.2 hab.1) hreached
    fun z hz hnot h1 h2 => ?_
  obtain ⟨m, hm, hmasks, rfl, hfirst, hsecond⟩ := h.exists_admitted hp hinner hz hnot h1 h2
  exact hbest.value_le m hm hmasks hfirst hsecond

/-- The round in which nothing is admitted any more. -/
theorem Underway.drained_of_none (h : Underway p a b masks q.frontier) (hp : p.WholeObjectives)
    (hinner : (inner a b).Sealed p)
    (hnone : ∀ m, p.FeasibleMask m → m ∉ masks →
      ¬(((inner a b).range .first).allows (p.maskOutcome m).z1 = true ∧
        ((inner a b).range .second).allows (p.maskOutcome m).z2 = true))
    (hready : Ready p limit? k q w) :
    Drained p cfg c limit? a b k q.frontier .completed q w := by
  refine ⟨h.sound.extends_self, fun _ z hz h1 h2 => ?_, fun _ => rfl, hready⟩
  by_contra hnot
  obtain ⟨m, hm, hmasks, rfl, hallows⟩ := h.exists_admitted hp hinner hz hnot h1 h2
  exact hnone m hm hmasks hallows

open Phase in
/-- The round of any other optimum: it is recorded and excluded, and unless the time is over the
ranking goes on. -/
theorem Drains.optimal (hdrains : Drains p cfg c limit? a b k fuel)
    (h : Underway p a b masks q.frontier) (hp : p.WholeObjectives) (hinner : (inner a b).Sealed p)
    (hab : Descends a.toPoint b.toPoint) {mask : ℕ} {best : Optimum ℚ}
    (hbest : IsFound p (a.chord b) ((inner a b).range .first) ((inner a b).range .second) masks
      mask best)
    (hw : InForce (excluding p limit? (a.chord b) ((inner a b).range .first)
      ((inner a b).range .second) masks) w)
    (hroom : q.Room p (k + (2 ^ p.dimension - masks.length))) {s : Solution ℚ}
    (hs : s.toPoint = best.toPoint) :
    Ensures (Enumerator.oracle p) c
      (do modifyFrontier fun f => (f.update s).2
          tell (.exclude (noGood (best.decisions.map binary)))
          if ← isOver cfg.timeLimit then return .partly
          drain cfg (a.chord b) a.z1 b.z1 fuel) q w
      (Drained p cfg c limit? a b k q.frontier)
      (fun _ _ _ => fuel + 1 ≤ 2 ^ p.dimension - masks.length) := by
  obtain ⟨hext, hunder⟩ := h.update hp hinner hab hbest hs
  have hlen := hunder.spent.length_le
  rw [List.length_cons] at hlen
  have hw' := hw.tell p (.exclude (noGood (best.decisions.map binary)))
  rw [hbest.decisions_eq, follow_exclude] at hw'
  rw [hbest.decisions_eq]
  simp only [ensures_bind, ensures_modifyFrontier, ensures_tell, ensures_isOver,
    decide_eq_true_eq]
  generalize w.tell (Enumerator.oracle p) (.exclude (noGood ((p.decisions mask).map binary))) = w'
    at hw' ⊢
  by_cases hover : cfg.timeLimit ≤ c w'.moment
  · rw [if_pos hover, ensures_pure]
    refine ⟨hext, fun h => (nomatch h), fun h => absurd h (not_unhindered_of_over hover),
      mask :: masks, hunder.spent, hroom.mono ?_, _, _, _, hw'⟩
    rw [List.length_cons]
    omega
  · rw [if_neg hover]
    refine (hdrains (q := ⟨_, _⟩) hunder (hw'.time c) (hroom.mono ?_)).mono ?_ ?_
    · rw [List.length_cons]
      omega
    · rintro status q' w'' ⟨hext', hclosed, hcompleted, hready⟩
      exact ⟨hext.trans hext', hclosed, hcompleted, hready⟩
    · intro cut q' w'' hfuel
      rw [List.length_cons] at hfuel
      omega

open Phase in
theorem ensures_drain (hp : p.WholeObjectives) (hab : Descends a.toPoint b.toPoint)
    (hinner : (inner a b).Sealed p) (fuel : ℕ) : Drains p cfg c limit? a b k fuel := by
  induction fuel with
  | zero =>
      intro masks q w h hw hroom
      rw [drain, ensures_cut]
      exact Nat.zero_le _
  | succ fuel ih =>
      intro masks q w h hw hroom
      simp only [drain, ensures_bind]
      refine ensures_solve hw hroom ?_
      intro answer w' hanswer hw' hroom'
      have hready : Ready p limit? k (q.count answer) w' :=
        ⟨masks, h.spent, hroom', _, _, _, hw'⟩
      rcases found_of_answers h.spent.lt hanswer with
        ⟨best, mask, rfl, hbest⟩ | ⟨rfl, hnone⟩ | ⟨nodes, rfl, hlim⟩
      · simp only [ensures_bind, ensures_frontier]
        by_cases hreached : reached best.value
            ((q.count (.optimal best)).frontier.nadirWithin? (a.chord b) a.z1 b.z1) = true
        · rw [if_pos hreached, ensures_pure]
          exact Underway.drained_of_reached (q := q.count (.optimal best)) h hp hinner hab hbest
            hreached hready
        · rw [if_neg hreached]
          exact ih.optimal (q := q.count (.optimal best)) h hp hinner hab hbest hw' hroom' rfl
      · rw [ensures_pure]
        exact Underway.drained_of_none (q := q.count .infeasible) h hp hinner hnone hready
      · rw [ensures_pure]
        exact ⟨h.sound.extends_self, fun h => (nomatch h),
          fun h => absurd h (not_unhindered_of_limit hlim), hready⟩

end Drain

open Phase in
theorem ensures_search_cons {p : Program ℚ} (hp : p.WholeObjectives) {cfg : Config ℚ} {c : Clock}
    {limit? : Option ℕ} {k : ℕ} (fuel : ℕ) {a : Solution ℚ} {l : List (Solution ℚ)}
    (hchain : Chain p (a :: l)) (status : Status) {q : Progress ℚ} {w : World ℚ (Enumerator ℚ)}
    (hsound : q.frontier.Sound p) (hmem : ∀ s ∈ a :: l, s.toPoint ∈ q.frontier.points)
    (hready : Ready p limit? (k + l.length) q w) :
    Ensures (Enumerator.oracle p) c (search cfg fuel (neighbours (a :: l)) status) q w
      (fun status' q' _ => q.frontier.Extends p q'.frontier ∧
        (status' = .completed → status = .completed ∧
          ∀ ab ∈ neighbours (a :: l), q'.frontier.Closes p ab) ∧
        (Unhindered cfg c limit? → status = .completed → status' = .completed))
      (fun _ _ _ => fuel ≤ 2 ^ p.dimension) := by
  induction l generalizing a status q w with
  | nil =>
      have hnone : neighbours [a] = [] := rfl
      rw [hnone, search, ensures_pure]
      exact ⟨hsound.extends_self, fun h => ⟨h, by simp⟩, fun _ h => h⟩
  | cons b l ih =>
      obtain ⟨masks, hspent, hroom, weights, first, second, hw⟩ := hready
      have hab : Descends a.toPoint b.toPoint :=
        (List.pairwise_cons.1 hchain.descends).1 b List.mem_cons_self
      have ha := hmem a List.mem_cons_self
      have hb := hmem b (List.mem_cons_of_mem _ List.mem_cons_self)
      have hroom' : q.Room p (k + l.length + (2 ^ p.dimension - masks.length) + 1) := by
        refine hroom.mono ?_
        rw [List.length_cons]
        omega
      have htold : InForce (excluding p limit? (a.chord b) ((inner a b).range .first)
          ((inner a b).range .second) masks) _ :=
        ((hw.tell p (.bound .first ((inner a b).range .first))).tell p
          (.bound .second ((inner a b).range .second))).tell p (.weights (a.chord b))
      simp only [neighbours_cons_cons, search, ensures_bind, ensures_tell]
      have hinner := sealed_inner hp (hsound.pareto _ ha) (hsound.pareto _ hb)
      refine (ensures_drain hp hab hinner fuel ⟨hsound, ha, hb, hspent⟩ htold hroom').mono ?_ ?_
      · rintro here q1 w1 ⟨hext, hcloses, hunhindered, hready1⟩
        refine (ih hchain.tail (status.and here) hext.sound ?_ hready1).mono ?_ ?_
        · intro s hs
          exact hext.subset _ (hmem s (List.mem_cons_of_mem _ hs))
        · rintro status' q' w' ⟨hext', hdone, hunhindered'⟩
          refine ⟨hext.trans hext', fun h => ?_, fun hun h => hunhindered' hun ?_⟩
          · obtain ⟨hboth, hclosed⟩ := hdone h
            obtain ⟨hstatus, hhere⟩ := Status.and_eq_completed_iff.1 hboth
            refine ⟨hstatus, fun gap hgap => ?_⟩
            rcases List.mem_cons.1 hgap with rfl | hgap
            · exact hext'.closes (hcloses hhere)
            · exact hclosed gap hgap
          · exact Status.and_eq_completed_iff.2 ⟨h, hunhindered hun⟩
        · intro cut q' w' hfuel
          exact hfuel
      · intro cut q' w' hfuel
        exact hfuel.trans (Nat.sub_le _ _)

open Phase in
theorem ensures_search {p : Program ℚ} (hp : p.WholeObjectives) {cfg : Config ℚ} {c : Clock}
    {limit? : Option ℕ} (fuel : ℕ) {l : List (Solution ℚ)} (hchain : Chain p l) {q : Progress ℚ}
    {w : World ℚ (Enumerator ℚ)} (hsound : q.frontier.Sound p)
    (hmem : ∀ s ∈ l, s.toPoint ∈ q.frontier.points) (hw : Excluding p limit? [] w)
    (hroom : q.Room p (2 * 2 ^ p.dimension)) :
    Ensures (Enumerator.oracle p) c (search cfg fuel (neighbours l) .completed) q w
      (fun status q' _ => q.frontier.Extends p q'.frontier ∧
        (status = .completed → ∀ ab ∈ neighbours l, q'.frontier.Closes p ab) ∧
        (Unhindered cfg c limit? → status = .completed))
      (fun _ _ _ => fuel ≤ 2 ^ p.dimension) := by
  cases l with
  | nil =>
      exact (ensures_pure _).2 ⟨hsound.extends_self, by simp [neighbours], fun _ => rfl⟩
  | cons a l =>
      have hlen := hchain.length_le
      rw [List.length_cons] at hlen
      have hready : Ready p limit? (0 + l.length) q w := by
        refine ⟨[], .nil p _, hroom.mono ?_, hw⟩
        rw [List.length_nil]
        omega
      refine (ensures_search_cons hp fuel hchain .completed hsound hmem hready).mono ?_ ?_
      · rintro status q' w' ⟨hext, hdone, hunhindered⟩
        exact ⟨hext, fun h => (hdone h).2, fun hun => hunhindered hun rfl⟩
      · intro cut q' w' hfuel
        exact hfuel

open Phase in
theorem ensures_phase {p : Program ℚ} (hp : p.WholeObjectives) {cfg : Config ℚ} {c : Clock}
    {limit? : Option ℕ} (fuel : ℕ) {q : Progress ℚ} {w : World ℚ (Enumerator ℚ)}
    (hchain : Chain p q.frontier.supported) (hsound : q.frontier.Sound p)
    (hall : q.frontier.all = q.frontier.supported) (hw : Excluding p limit? [] w)
    (hroom : q.Room p (2 * 2 ^ p.dimension)) :
    Ensures (Enumerator.oracle p) c (phase cfg p.dimension fuel) q w
      (fun status q' _ => q.frontier.Filled p cfg c limit? status q'.frontier)
      (fun _ _ _ => fuel ≤ 2 ^ p.dimension) := by
  have hmem : ∀ s ∈ q.frontier.supported, s.toPoint ∈ q.frontier.points := by
    intro s hs
    rw [← hall] at hs
    exact Frontier.mem_points hs
  simp only [phase, if_neg p.not_maxLength_lt, ensures_bind, ensures_frontier, ensures_tell,
    ensures_pure]
  refine (ensures_search hp fuel hchain hsound hmem hw hroom).mono ?_ ?_
  · rintro status q' w' ⟨hext, hclosed, hcompleted⟩
    exact ⟨hext, hclosed, hcompleted⟩
  · intro cut q' w' hfuel
    exact hfuel

end Ranking

end Biobjective
