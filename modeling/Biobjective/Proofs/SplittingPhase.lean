import Biobjective.Proofs.Gap
import Biobjective.Splitting

/-!
# What the second phase by splitting finds

While a queue of sealed boxes is worked off, the frontier stays sound, and each
Pareto outcome of a waiting box is retained in the end: the one that a solve
finds joins the frontier, and all others of its box are in the parts that join
the queue. The effort of the queue falls with every solve, so fuel of that
amount does not run out, and the node counter holds the solves of all boxes
together.
-/

namespace Biobjective

namespace Splitting

/-- How a queue may be left before it is worked off. -/
inductive Left (cfg : Config ℚ) (c : Clock) (limit? : Option ℕ) (fuel effort : ℕ) : Cut → Prop
  | timeout (h : ¬Unhindered cfg c limit?) : Left cfg c limit? fuel effort .timeout
  | outOfFuel (h : fuel < effort) : Left cfg c limit? fuel effort .outOfFuel

theorem Left.mono {cfg : Config ℚ} {c : Clock} {limit? : Option ℕ} {fuel effort effort' : ℕ}
    {cut : Cut} (h : Left cfg c limit? fuel effort' cut) (heffort : effort' ≤ effort) :
    Left cfg c limit? fuel effort cut := by
  cases h with
  | timeout h => exact .timeout h
  | outOfFuel h => exact .outOfFuel (lt_of_lt_of_le h heffort)

theorem Left.step {cfg : Config ℚ} {c : Clock} {limit? : Option ℕ} {fuel effort effort' : ℕ}
    {cut : Cut} (h : Left cfg c limit? fuel effort' cut) (heffort : effort' < effort) :
    Left cfg c limit? (fuel + 1) effort cut := by
  cases h with
  | timeout h => exact .timeout h
  | outOfFuel h => exact .outOfFuel (lt_of_le_of_lt h heffort)

theorem extends_update_of_isPareto {p : Program ℚ} (hp : p.WholeObjectives) {f : Frontier ℚ}
    (hf : f.Sound p) {s : Solution ℚ} (hs : p.IsPareto s.toPoint) :
    f.Extends p (f.update s).2 ∧ s.toPoint ∈ (f.update s).2.points := by
  obtain ⟨hext, hdom⟩ := hf.update hp hs.mem fun y hy h => Or.inl (hs.eq_of_weaklyDominates hy h)
  exact ⟨hext, hext.sound.mem_of_weaklyDominates hs hdom⟩

section Drain

variable {p : Program ℚ} {cfg : Config ℚ} {c : Clock} {limit? : Option ℕ} {weights : Weights ℚ}
variable {k fuel : ℕ} {q : Progress ℚ} {w : World ℚ (Enumerator ℚ)} {first second : Interval ℚ}
variable {r : Region ℚ} {queue rest : List (Region ℚ)}

/-- The queue was worked off from the frontier `f`, and there is room for `k` solves more. -/
structure Drained (p : Program ℚ) (limit? : Option ℕ) (k : ℕ) (f : Frontier ℚ)
    (queue : List (Region ℚ)) (q : Progress ℚ) (w : World ℚ (Enumerator ℚ)) : Prop where
  grown : f.Extends p q.frontier
  found : ∀ r ∈ queue, ∀ z, p.IsPareto z → r.Holds z → z ∈ q.frontier.points
  room : q.Room p k
  excluding : Excluding p limit? [] w

/-- With this fuel each queue of sealed boxes is worked off, or left for a reason. -/
def Drains (p : Program ℚ) (cfg : Config ℚ) (c : Clock) (limit? : Option ℕ) (weights : Weights ℚ)
    (k fuel : ℕ) : Prop :=
  ∀ {queue : List (Region ℚ)} {first second : Interval ℚ} {q : Progress ℚ}
    {w : World ℚ (Enumerator ℚ)}, q.frontier.Sound p → (∀ r ∈ queue, r.Sealed p) →
    InForce (asking p limit? weights first second) w → q.Room p (k + p.effort queue) →
    Phase.Ensures (Enumerator.oracle p) c (drain cfg fuel queue) q w
      (fun _ q' w' => Drained p limit? k q.frontier queue q' w')
      (fun cut q' _ => q.frontier.Extends p q'.frontier ∧
        Left cfg c limit? fuel (p.effort queue) cut)

theorem effort_of_perm (hperm : (r :: rest).Perm queue) :
    p.effort queue = 2 * p.load r + 1 + p.effort rest := by
  rw [← p.effort_perm hperm, Program.effort_cons]

open Phase in
/-- The round of an optimum: it joins the frontier, and what its box has left joins the queue. -/
theorem Drains.optimal (h : Drains p cfg c limit? weights k fuel) (hp : p.WholeObjectives)
    (hw1 : 0 < weights.w1) (hw2 : 0 < weights.w2) (hperm : (r :: rest).Perm queue)
    (hsealed : ∀ r ∈ queue, r.Sealed p) {best : Optimum ℚ}
    (hbest : IsBest p weights (r.range .first) (r.range .second) best)
    (hsound : q.frontier.Sound p) (hw : InForce (asking p limit? weights first second) w)
    (hroom : q.Room p (k + (2 * p.load r + p.effort rest))) :
    Ensures (Enumerator.oracle p) c
      (do modifyFrontier fun f => (f.update (best.toSolution false cfg.keepDecisions)).2
          drain cfg fuel (rest ++ r.split best.toPoint)) q w
      (fun _ q' w' => Drained p limit? k q.frontier queue q' w')
      (fun cut q' _ => q.frontier.Extends p q'.frontier ∧
        Left cfg c limit? (fuel + 1) (p.effort queue) cut) := by
  have hr : r.Sealed p := hsealed r (hperm.mem_iff.1 List.mem_cons_self)
  have hpareto : p.IsPareto best.toPoint := hr.isPareto_of_isBest hp hw1 hw2 hbest
  have hholds : r.Holds best.toPoint :=
    (hr.allows_iff hp hbest.mem).1 ⟨hbest.first_allows, hbest.second_allows⟩
  obtain ⟨hext, hfound⟩ := extends_update_of_isPareto
    (s := best.toSolution false cfg.keepDecisions) hp hsound hpareto
  have heffort := effort_of_perm (p := p) hperm
  have hsplit := Program.effort_split_lt hbest.mem hholds
  have hparts : p.effort (rest ++ r.split best.toPoint) < p.effort queue := by
    rw [Program.effort_append]
    omega
  have hsealed' : ∀ r' ∈ rest ++ r.split best.toPoint, r'.Sealed p := by
    intro r' hr'
    rcases List.mem_append.1 hr' with hr' | hr'
    · exact hsealed r' (hperm.mem_iff.1 (List.mem_cons_of_mem _ hr'))
    · exact hr.split hp hpareto hholds hr'
  simp only [ensures_bind, ensures_modifyFrontier]
  refine (h (q := ⟨_, _⟩) hext.sound hsealed' hw (hroom.mono (by omega))).mono ?_ ?_
  · rintro - q' w' ⟨hext', hfind, hroom', hw'⟩
    refine ⟨hext.trans hext', fun r' hr' z hz hrz => ?_, hroom', hw'⟩
    rcases List.mem_cons.1 (hperm.mem_iff.2 hr') with rfl | hr'
    · by_cases heq : z = best.toPoint
      · rw [heq]
        exact hext'.subset _ hfound
      · obtain ⟨part, hpart, hpz⟩ := Region.exists_mem_split hp hz hpareto hrz heq
        exact hfind part (List.mem_append_right _ hpart) z hz hpz
    · exact hfind r' (List.mem_append_left _ hr') z hz hrz
  · rintro cut q' w' ⟨hext', hleft⟩
    exact ⟨hext.trans hext', hleft.step hparts⟩

open Phase in
/-- The round of an empty box: the rest of the queue is all there is. -/
theorem Drains.infeasible (h : Drains p cfg c limit? weights k fuel) (hp : p.WholeObjectives)
    (hperm : (r :: rest).Perm queue) (hsealed : ∀ r ∈ queue, r.Sealed p)
    (hnone : ∀ y ∈ p.outcomes,
      ¬((r.range .first).allows y.z1 = true ∧ (r.range .second).allows y.z2 = true))
    (hsound : q.frontier.Sound p) (hw : InForce (asking p limit? weights first second) w)
    (hroom : q.Room p (k + (2 * p.load r + p.effort rest))) :
    Ensures (Enumerator.oracle p) c (drain cfg fuel rest) q w
      (fun _ q' w' => Drained p limit? k q.frontier queue q' w')
      (fun cut q' _ => q.frontier.Extends p q'.frontier ∧
        Left cfg c limit? (fuel + 1) (p.effort queue) cut) := by
  have hr : r.Sealed p := hsealed r (hperm.mem_iff.1 List.mem_cons_self)
  have hrest : ∀ r' ∈ rest, r'.Sealed p := fun r' hr' =>
    hsealed r' (hperm.mem_iff.1 (List.mem_cons_of_mem _ hr'))
  have heffort := effort_of_perm (p := p) hperm
  refine (h hsound hrest hw (hroom.mono (by omega))).mono ?_ ?_
  · rintro - q' w' ⟨hext, hfind, hroom', hw'⟩
    refine ⟨hext, fun r' hr' z hz hrz => ?_, hroom', hw'⟩
    rcases List.mem_cons.1 (hperm.mem_iff.2 hr') with rfl | hr'
    · exact absurd ((hr.allows_iff hp hz.mem).2 hrz) (hnone z hz.mem)
    · exact hfind r' hr' z hz hrz
  · rintro cut q' w' ⟨hext, hleft⟩
    exact ⟨hext, hleft.step (by omega)⟩

open Phase in
theorem ensures_drain (hp : p.WholeObjectives) (hw1 : 0 < weights.w1) (hw2 : 0 < weights.w2)
    (fuel : ℕ) : Drains p cfg c limit? weights k fuel := by
  induction fuel with
  | zero =>
      intro queue first second q w hsound hsealed hw hroom
      cases queue with
      | nil =>
          rw [drain, List.isEmpty_nil, if_pos rfl, ensures_pure]
          exact ⟨hsound.extends_self, by simp, hroom, _, _, _, hw⟩
      | cons r queue =>
          rw [drain, List.isEmpty_cons, if_neg Bool.false_ne_true, ensures_cut]
          refine ⟨hsound.extends_self, .outOfFuel ?_⟩
          rw [Program.effort_cons]
          omega
  | succ fuel ih =>
      intro queue first second q w hsound hsealed hw hroom
      cases hpop : cfg.queueOrder.pop? queue with
      | none =>
          rw [drain, hpop, ensures_pure, (cfg.queueOrder.pop?_eq_none_iff queue).1 hpop]
          exact ⟨hsound.extends_self, by simp, hroom.mono (Nat.le_add_right _ _), _, _, _, hw⟩
      | some popped =>
          obtain ⟨r, rest⟩ := popped
          have hperm := QueueOrder.perm_of_pop? hpop
          have heffort := effort_of_perm (p := p) hperm
          have hroom' : q.Room p ((k + (2 * p.load r + p.effort rest)) + 1) :=
            hroom.mono (by omega)
          simp only [drain, hpop, ensures_bind, ensures_tell]
          refine ensures_checkTime_of (fun h => ⟨hsound.extends_self, .timeout h⟩) ?_
          refine ensures_solve (e := asking p limit? weights (r.range .first) (r.range .second))
            (((hw.time c).tell p (.bound .first (r.range .first))).tell p
              (.bound .second (r.range .second))) hroom' ?_
          intro answer w' hanswer hw' hroom''
          rcases outcome_of_answers hanswer with
            ⟨best, rfl, hbest⟩ | ⟨rfl, hnone⟩ | ⟨nodes, rfl, hlim⟩
          · exact ih.optimal hp hw1 hw2 hperm hsealed hbest hsound hw' hroom''
          · exact ih.infeasible hp hperm hsealed hnone hsound hw' hroom''
          · rw [ensures_cut]
            exact ⟨hsound.extends_self, .timeout (not_unhindered_of_limit hlim)⟩

end Drain

theorem holds_ofCorners {p : Program ℚ} {a b : Solution ℚ} (ha : p.IsPareto a.toPoint)
    (hb : p.IsPareto b.toPoint) {z : Point ℚ} (hz : p.IsPareto z) (h1 : a.z1 < z.z1)
    (h2 : z.z1 < b.z1) : (Region.ofCorners a b).Holds z :=
  ⟨h1.le, h2.le, (hz.descends_of_lt hb h2).2.le, (ha.descends_of_lt hz h1).2.le⟩

open Phase in
theorem ensures_search_cons {p : Program ℚ} (hp : p.WholeObjectives) {cfg : Config ℚ} {c : Clock}
    {limit? : Option ℕ} {k : ℕ} (fuel : ℕ) {a : Solution ℚ} {l : List (Solution ℚ)}
    (hchain : Chain p (a :: l)) {q : Progress ℚ} {w : World ℚ (Enumerator ℚ)}
    (hsound : q.frontier.Sound p) (hw : Excluding p limit? [] w)
    (hroom : q.Room p (k + (2 * p.ahead a.z1 + l.length))) :
    Ensures (Enumerator.oracle p) c (search cfg fuel (neighbours (a :: l))) q w
      (fun _ q' _ => q.frontier.Extends p q'.frontier ∧
        ∀ ab ∈ neighbours (a :: l), q'.frontier.Closes p ab)
      (fun cut q' _ => q.frontier.Extends p q'.frontier ∧
        Left cfg c limit? fuel (2 * 2 ^ p.dimension + 1) cut) := by
  induction l generalizing a q w with
  | nil =>
      have hnone : neighbours [a] = [] := rfl
      rw [hnone, search, ensures_pure]
      exact ⟨hsound.extends_self, by simp⟩
  | cons b l ih =>
      obtain ⟨weights, first, second, hw⟩ := hw
      have hab : Descends a.toPoint b.toPoint :=
        (List.pairwise_cons.1 hchain.descends).1 b List.mem_cons_self
      have ha := (hchain.supported a List.mem_cons_self).isPareto
      have hb := (hchain.supported b (List.mem_cons_of_mem _ List.mem_cons_self)).isPareto
      have hload := p.load_add_ahead_le hab.1
      have heffort : p.effort [.ofCorners a b] = 2 * p.load (.ofCorners a b) + 1 := by
        rw [Program.effort_cons]
        rfl
      have hroom' : q.Room p (k + (2 * p.ahead b.z1 + l.length) + p.effort [.ofCorners a b]) := by
        refine hroom.mono ?_
        rw [heffort, List.length_cons]
        omega
      simp only [neighbours_cons_cons, search, ensures_bind, ensures_tell]
      refine (ensures_drain hp (sub_pos.2 hab.2) (sub_pos.2 hab.1) fuel hsound ?_
        (hw.tell p (.weights (a.chord b))) hroom').mono ?_ ?_
      · intro r hr
        rw [List.mem_singleton.1 hr]
        exact Region.Sealed.ofCorners hp ha hb
      · rintro - q1 w1 ⟨hext, hfind, hroom1, hw1⟩
        refine (ih hchain.tail hext.sound hw1 hroom1).mono ?_ ?_
        · rintro - q' w' ⟨hext', hclosed⟩
          refine ⟨hext.trans hext', fun gap hgap => ?_⟩
          rcases List.mem_cons.1 hgap with rfl | hgap
          · exact hext'.closes fun z hz h1 h2 =>
              hfind _ List.mem_cons_self z hz (holds_ofCorners ha hb hz h1 h2)
          · exact hclosed gap hgap
        · rintro cut q' w' ⟨hext', hleft⟩
          exact ⟨hext.trans hext', hleft⟩
      · rintro cut q' w' ⟨hext, hleft⟩
        refine ⟨hext, hleft.mono ?_⟩
        have hbound : p.load (.ofCorners a b) ≤ 2 ^ p.dimension := p.tally_le _
        rw [heffort]
        omega

open Phase in
theorem ensures_search {p : Program ℚ} (hp : p.WholeObjectives) {cfg : Config ℚ} {c : Clock}
    {limit? : Option ℕ} (fuel : ℕ) {l : List (Solution ℚ)} (hchain : Chain p l) {q : Progress ℚ}
    {w : World ℚ (Enumerator ℚ)} (hsound : q.frontier.Sound p) (hw : Excluding p limit? [] w)
    (hroom : q.Room p (5 * 2 ^ p.dimension)) :
    Ensures (Enumerator.oracle p) c (search cfg fuel (neighbours l)) q w
      (fun _ q' _ => q.frontier.Extends p q'.frontier ∧
        ∀ ab ∈ neighbours l, q'.frontier.Closes p ab)
      (fun cut q' _ => q.frontier.Extends p q'.frontier ∧
        Left cfg c limit? fuel (2 * 2 ^ p.dimension + 1) cut) := by
  cases l with
  | nil => exact (ensures_pure _).2 ⟨hsound.extends_self, by simp [neighbours]⟩
  | cons a l =>
      have hlen := hchain.length_le
      have hahead := p.ahead_le a.z1
      rw [List.length_cons] at hlen
      exact ensures_search_cons (k := 0) hp fuel hchain hsound hw (hroom.mono (by omega))

open Phase in
theorem ensures_phase {p : Program ℚ} (hp : p.WholeObjectives) {cfg : Config ℚ} {c : Clock}
    {limit? : Option ℕ} (fuel : ℕ) {q : Progress ℚ} {w : World ℚ (Enumerator ℚ)}
    (hchain : Chain p q.frontier.supported) (hsound : q.frontier.Sound p)
    (hw : Excluding p limit? [] w) (hroom : q.Room p (5 * 2 ^ p.dimension)) :
    Ensures (Enumerator.oracle p) c (phase cfg fuel) q w
      (fun status q' _ => q.frontier.Filled p cfg c limit? status q'.frontier)
      (fun _ _ _ => fuel ≤ 2 * 2 ^ p.dimension) := by
  refine (ensures_handle _ _).2 ((ensures_look fun q => search cfg fuel
    (neighbours q.frontier.supported)).2
      ((ensures_search hp fuel hchain hsound hw hroom).mono ?_ ?_))
  · rintro - q' w' ⟨hext, hclosed⟩
    unfold Ensures
    exact ⟨hext, fun _ => hclosed, fun _ => rfl⟩
  · rintro cut q' w' ⟨hext, hleft⟩
    unfold Ensures
    cases hleft with
    | timeout h => exact ⟨hext, fun hs => (nomatch hs), fun hun => absurd hun h⟩
    | outOfFuel h => exact Nat.lt_succ_iff.1 h

end Splitting

end Biobjective
