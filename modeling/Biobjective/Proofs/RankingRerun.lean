import Biobjective.Proofs.Attestation
import Biobjective.Proofs.CutProgram
import Mathlib.Data.Set.Finite.Lemmas

/-!
# A second run by ranking

Ranking excludes each assignment that it records, and exclusions last. The box between two
supported neighbours holds none of the supported points, so these are never excluded, and all
else that a run retains is the outcome of an assignment that it has excluded.

A second run with the same oracle is a run on the program without these assignments. It
completes too, with what is Pareto among the outcomes that are left: the supported points, and
of the others those that some further assignment attains, but also outcomes that the lost ones
had dominated. The main result is `Method.run_ranking_again`.
-/

namespace Biobjective

open Phase

namespace Ranking

/-- What the excluded masks have to do with the supported points and with what is retained. -/
structure Recorded (p : Program ℚ) (l : List (Solution ℚ)) (f : Frontier ℚ)
    (masks : List ℕ) : Prop where
  feasible : ∀ m ∈ masks, p.FeasibleMask m
  spares : ∀ m ∈ masks, p.maskOutcome m ∉ l.map (·.toPoint)
  accounts : ∀ s ∈ f.all, s ∈ l ∨ ∃ m ∈ masks, p.maskOutcome m = s.toPoint

section Recorded

variable {p : Program ℚ} {l : List (Solution ℚ)} {f : Frontier ℚ} {masks : List ℕ}

theorem Recorded.lt (h : Recorded p l f masks) : ∀ m ∈ masks, m < 2 ^ p.dimension :=
  fun m hm => (h.feasible m hm).1

theorem Recorded.nil (h : f.all = l) : Recorded p l f [] :=
  ⟨nofun, nofun, fun _ hs => Or.inl (h ▸ hs)⟩

theorem Recorded.update (h : Recorded p l f masks) {mask : ℕ} (hmask : p.FeasibleMask mask)
    (hspares : p.maskOutcome mask ∉ l.map (·.toPoint)) {s : Solution ℚ}
    (hs : p.maskOutcome mask = s.toPoint) : Recorded p l (f.update s).2 (mask :: masks) := by
  refine ⟨List.forall_mem_cons.2 ⟨hmask, h.feasible⟩,
    List.forall_mem_cons.2 ⟨hspares, h.spares⟩, fun t ht => ?_⟩
  rcases Frontier.mem_of_mem_update ht with rfl | ht
  · exact Or.inr ⟨mask, List.mem_cons_self, hs⟩
  · rcases h.accounts t ht with hl | ⟨m, hm, heq⟩
    · exact Or.inl hl
    · exact Or.inr ⟨m, List.mem_cons_of_mem _ hm, heq⟩

/-- Cutting the excluded masks off takes no supported point away. -/
theorem Recorded.mem_outcomes_cut (h : Recorded p l f masks) (hchain : Chain p l)
    {s : Solution ℚ} (hs : s ∈ l) : s.toPoint ∈ (p.cut masks).outcomes := by
  obtain ⟨mask, hmask, heq⟩ := (p.mem_outcomes_iff _).1 (hchain.supported s hs).mem
  refine ((p.cut masks).mem_outcomes_iff _).2 ⟨mask, ?_, heq⟩
  refine (Program.feasibleMask_cut_iff h.lt).2 ⟨hmask, fun hmem => ?_⟩
  exact h.spares mask hmem (heq ▸ List.mem_map_of_mem hs)

end Recorded

/-- No supported point lies in the box that is searched between two of them. -/
theorem notMem_of_allows {p : Program ℚ} (hp : p.WholeObjectives) {l : List (Solution ℚ)}
    (hchain : Chain p l) {a b : Solution ℚ} (hab : (a, b) ∈ neighbours l) {z : Point ℚ}
    (hz : z ∈ p.outcomes) (h1 : ((inner a b).range .first).allows z.z1 = true)
    (h2 : ((inner a b).range .second).allows z.z2 = true) : z ∉ l.map (·.toPoint) := by
  rintro hmem
  obtain ⟨s, hs, rfl⟩ := List.mem_map.1 hmem
  have hpareto : ∀ t ∈ l, p.IsPareto t.toPoint := fun t ht => (hchain.supported t ht).isPareto
  obtain ⟨ha, hb⟩ := mem_of_mem_neighbours hab
  obtain ⟨hleft, hright, -, habove⟩ :=
    ((sealed_inner hp (hpareto a ha) (hpareto b hb)).allows_iff hp hz).1 ⟨h1, h2⟩
  change a.z1 ≤ s.z1 at hleft
  change s.z1 ≤ b.z1 - 1 at hright
  change s.z2 ≤ a.z2 - 1 at habove
  have hascends : l.Pairwise fun s t => s.z1 < t.z1 := hchain.descends.imp And.left
  rcases le_or_le_of_mem_neighbours (fun t => t.z1) hascends hab hs with hle | hle
  · have heq : s.toPoint = a.toPoint :=
      (hpareto s hs).eq_of_z1_eq (hpareto a ha) (le_antisymm hle hleft)
    have hz2 : s.z2 = a.z2 := congrArg Point.z2 heq
    linarith
  · change b.z1 ≤ s.z1 at hle
    linarith

section World

variable {p : Program ℚ} {cfg : Config ℚ} {c : Clock} {l : List (Solution ℚ)}

/-- The masks that the world's enumerator excludes are recorded. -/
def Records (p : Program ℚ) (l : List (Solution ℚ)) (q : Progress ℚ)
    (w : World ℚ (Enumerator ℚ)) : Prop :=
  ∃ masks, Recorded p l q.frontier masks ∧ Excluding p none masks w

theorem records_drain {weights : Weights ℚ} {first second : Interval ℚ} {lo hi : ℚ}
    (hbox : ∀ z ∈ p.outcomes, first.allows z.z1 = true → second.allows z.z2 = true →
      z ∉ l.map (·.toPoint)) (fuel : ℕ) {masks : List ℕ} {q : Progress ℚ}
    {w : World ℚ (Enumerator ℚ)} (h : Recorded p l q.frontier masks)
    (hw : InForce (excluding p none weights first second masks) w) :
    Ensures (Enumerator.oracle p) c (drain cfg weights lo hi fuel) q w
      (fun _ q' w' => Records p l q' w') (fun _ _ _ => True) := by
  induction fuel generalizing masks q w with
  | zero => exact (ensures_cut _).2 trivial
  | succ fuel ih =>
      rw [drain, ensures_bind]
      refine ensures_solve_of hw (fun _ => trivial) ?_
      intro answer work w1 hanswer hw1
      have hstop : Records p l { q with work } w1 := ⟨masks, h, _, _, _, hw1⟩
      rcases found_of_answers h.lt hanswer with
        ⟨best, mask, rfl, hbest⟩ | ⟨rfl, -⟩ | ⟨nodes, rfl, -⟩
      · simp only [ensures_bind, ensures_frontier]
        split
        · exact (ensures_pure _).2 hstop
        · have hspares : p.maskOutcome mask ∉ l.map (·.toPoint) := by
            rw [← hbest.toPoint_eq]
            refine hbox _ ?_ hbest.first_allows hbest.second_allows
            rw [hbest.toPoint_eq]
            exact hbest.feasible.maskOutcome_mem
          have hw2 := hw1.tell p (.exclude (noGood (best.decisions.map binary)))
          rw [hbest.decisions_eq, follow_exclude] at hw2
          rw [hbest.decisions_eq]
          simp only [ensures_bind, ensures_modifyFrontier, ensures_tell, ensures_isOver]
          generalize w1.tell (Enumerator.oracle p)
            (.exclude (noGood ((p.decisions mask).map binary))) = w2 at hw2 ⊢
          have hrecorded : ∀ s : Solution ℚ, s.toPoint = best.toPoint →
              Recorded p l (q.frontier.update s).2 (mask :: masks) := fun s hs =>
            h.update hbest.feasible hspares (hbest.toPoint_eq.symm.trans hs.symm)
          split
          · exact (ensures_pure _).2 ⟨mask :: masks, hrecorded _ rfl, _, _, _, hw2⟩
          · exact ih (q := ⟨_, _⟩) (hrecorded _ rfl) (hw2.time c)
      · exact (ensures_pure _).2 hstop
      · exact (ensures_pure _).2 hstop

theorem records_search (fuel : ℕ) {pairs : List (Solution ℚ × Solution ℚ)}
    (hpairs : ∀ ab ∈ pairs, ∀ z ∈ p.outcomes,
      ((inner ab.1 ab.2).range .first).allows z.z1 = true →
      ((inner ab.1 ab.2).range .second).allows z.z2 = true → z ∉ l.map (·.toPoint))
    (status : Status) {q : Progress ℚ} {w : World ℚ (Enumerator ℚ)} (h : Records p l q w) :
    Ensures (Enumerator.oracle p) c (search cfg fuel pairs status) q w
      (fun _ q' w' => Records p l q' w') (fun _ _ _ => True) := by
  induction pairs generalizing status q w with
  | nil => exact (ensures_pure _).2 h
  | cons ab pairs ih =>
      obtain ⟨hab, hpairs⟩ := List.forall_mem_cons.1 hpairs
      obtain ⟨masks, hrecorded, weights, first, second, hw⟩ := h
      have htold : InForce (excluding p none (ab.1.chord ab.2) ((inner ab.1 ab.2).range .first)
          ((inner ab.1 ab.2).range .second) masks) _ :=
        ((hw.tell p (.bound .first ((inner ab.1 ab.2).range .first))).tell p
          (.bound .second ((inner ab.1 ab.2).range .second))).tell p (.weights (ab.1.chord ab.2))
      simp only [search, ensures_bind, ensures_tell]
      exact (records_drain hab fuel hrecorded htold).mono
        (fun here q1 w1 h1 => ih hpairs (status.and here) h1) fun _ _ _ h => h

/-- Ranking leaves nothing but exclusions behind. -/
theorem records_phase (hp : p.WholeObjectives) (dimension fuel : ℕ) {q : Progress ℚ}
    {w : World ℚ (Enumerator ℚ)} (hchain : Chain p q.frontier.supported)
    (hall : q.frontier.all = q.frontier.supported) (hw : Excluding p none [] w) :
    Ensures (Enumerator.oracle p) c (phase cfg dimension fuel) q w
      (fun _ q' w' => ∃ masks, Recorded p q.frontier.supported q'.frontier masks ∧
        w'.oracle.OnlyExcludes p masks)
      (fun _ _ _ => True) := by
  rw [phase]
  split
  · exact (ensures_bind _ _).2 ((ensures_cut _).2 trivial)
  · simp only [ensures_bind, ensures_frontier, ensures_tell, ensures_pure]
    refine (records_search fuel (fun ab hab z hz => notMem_of_allows hp hchain hab hz) .completed
      ⟨[], .nil hall, hw⟩).mono ?_ fun _ _ _ h => h
    rintro status q' w' ⟨masks, hrecorded, weights, first, second, hw'⟩
    obtain ⟨solves, heq⟩ := (hw'.tell p (.clear .first)).tell p (.clear .second)
    refine ⟨masks, hrecorded, ?_⟩
    rw [heq]
    exact ⟨rfl, rfl, ⟨rfl, rfl⟩, rfl⟩

end World

end Ranking

namespace Program

variable {p p' : Program ℚ} {z : Point ℚ}

/-- Every outcome is a Pareto outcome or dominated by one. -/
theorem exists_isPareto_weaklyDominates (hz : z ∈ p.outcomes) :
    ∃ y, p.IsPareto y ∧ WeaklyDominates y z := by
  have hfinite : {y ∈ p.outcomes | WeaklyDominates y z}.Finite :=
    p.finite_outcomes.subset fun _ hy => hy.1
  obtain ⟨y, ⟨hy, hyz⟩, hleast⟩ := Set.exists_min_image _ (fun y => y.z1 + y.z2) hfinite
    ⟨z, hz, le_rfl, le_rfl⟩
  refine ⟨y, ⟨hy, fun x hx h1 h2 => ?_⟩, hyz⟩
  have hsum : y.z1 + y.z2 ≤ x.z1 + x.z2 := hleast x ⟨hx, h1.trans hyz.1, h2.trans hyz.2⟩
  exact WeaklyDominates.antisymm ⟨h1, h2⟩ ⟨by linarith, by linarith⟩

theorem IsPareto.of_subset (hsub : p'.outcomes ⊆ p.outcomes) (hz : p.IsPareto z)
    (hmem : z ∈ p'.outcomes) : p'.IsPareto z :=
  ⟨hmem, fun y hy => hz.eq_of_le y (hsub hy)⟩

/-- Leaving out outcomes changes nothing as long as no Pareto outcome is left out. -/
theorem paretoPoints_eq_of_subset (hsub : p'.outcomes ⊆ p.outcomes)
    (hkept : ∀ z, p.IsPareto z → z ∈ p'.outcomes) : p'.paretoPoints = p.paretoPoints := by
  refine p'.staircase_paretoPoints.eq_of_mem_iff p.staircase_paretoPoints fun z => ?_
  rw [p'.mem_paretoPoints_iff, p.mem_paretoPoints_iff]
  constructor
  · intro hz
    obtain ⟨y, hy, hyz⟩ := exists_isPareto_weaklyDominates (hsub hz.mem)
    rw [← hz.eq_of_le y (hkept y hy) hyz.1 hyz.2]
    exact hy
  · intro hz
    exact hz.of_subset hsub (hkept z hz)

end Program

/-- The outcomes of the masks that an enumerator admits. -/
def Enumerator.outcomesLeft (e : Enumerator ℚ) : Set (Point ℚ) :=
  {z | ∃ mask, e.Admits mask ∧ e.program.maskOutcome mask = z}

theorem Enumerator.OnlyExcludes.outcomes_cut {p : Program ℚ} {masks : List ℕ} {e : Enumerator ℚ}
    (h : e.OnlyExcludes p masks) (hmasks : ∀ m ∈ masks, m < 2 ^ p.dimension) :
    (p.cut masks).outcomes = e.outcomesLeft := by
  ext z
  change _ ↔ ∃ mask, e.Admits mask ∧ e.program.maskOutcome mask = z
  rw [Program.mem_outcomes_iff, h.program]
  exact exists_congr fun m => and_congr_left' (h.admits_iff hmasks m).symm

theorem Program.outcomes_cut_subset {p : Program ℚ} {masks : List ℕ}
    (hmasks : ∀ m ∈ masks, m < 2 ^ p.dimension) : (p.cut masks).outcomes ⊆ p.outcomes := by
  intro z hz
  obtain ⟨m, hm, rfl⟩ := ((p.cut masks).mem_outcomes_iff z).1 hz
  exact ((feasibleMask_cut_iff hmasks).1 hm).1.maskOutcome_mem

namespace Run

/-- What a run by ranking leaves behind. -/
theorem recorded_of_session_ok {p : Program ℚ} (hp : p.WholeObjectives) {cfg : Config ℚ}
    (hstrategy : cfg.strategy = .ranking) (htol : cfg.tolerances.Fine) {clock : Clock}
    (hclock : NeverOver cfg clock) {fuel : ℕ} {c : Conclusion ℚ}
    (hok : ((session cfg p.dimension fuel).exec (Enumerator.oracle p) clock
      (.start (.ofProgram p none))).1 = .ok c) :
    Chain p c.frontier.supported ∧ Anchored p c.frontier.supported ∧
      ∃ masks, Ranking.Recorded p c.frontier.supported c.frontier masks ∧
        ((session cfg p.dimension fuel).exec (Enumerator.oracle p) clock
          (.start (.ofProgram p none))).2.oracle.OnlyExcludes p masks := by
  obtain ⟨first, q, w, second, q', w', hfirst, hsecond, rfl, hworld⟩ :=
    of_session_ok (o := Enumerator.oracle p) hok
  rw [firstPhase] at hfirst
  have hended := (Supported.ensures_phase (k := 0) hp htol.tie_pos htol.tie_le_half rfl
    (inForce_start p none) (Progress.room_start p _ (by omega))).ok_of_hold hfirst
  have hsame := (ensures_secondPhase_supported cfg (Enumerator.oracle p) _ fuel clock q
    (w.time clock).2).ok_of_hold hsecond
  obtain ⟨weights, range1, range2, hw⟩ := hended.unexcluding
  rw [secondPhase_ranking hstrategy] at hsecond
  obtain ⟨masks, hrecorded, hleft⟩ := (Ranking.records_phase hp _ fuel hended.chain
    hended.all_eq ⟨weights, range1, range2, hw.time clock⟩).ok_of_hold hsecond
  have hworld' : (session cfg p.dimension fuel).exec (Enumerator.oracle p) clock
      (.start (.ofProgram p none)) = (_, (w'.time clock).2) := Prod.ext rfl hworld
  rw [hworld', hsame]
  exact ⟨hended.chain, (hended.searched (hended.completed ⟨rfl, hclock⟩)).anchored, masks,
    hrecorded, hleft⟩

end Run

namespace Method

/-- The second one of two runs by ranking with the same oracle completes like the first one,
and finds what is Pareto among the outcomes that the first one has left: no supported point
is lost, everything else has lost an assignment, and the points are the same exactly if all
of them are left. -/
theorem run_ranking_again {p : Program ℚ} (hp : p.WholeObjectives) (hfeasible : ∃ x, p.Feasible x)
    {m : Method ℚ} (hstrategy : m.config.strategy = .ranking) (htol : m.config.tolerances.Fine)
    (fmt : ReportFormat ℚ) {clock clock' : Clock} (hclock : NeverOver m.config clock)
    (hclock' : NeverOver m.config clock') {fuel : ℕ} (hfuel : 2 ^ p.dimension < fuel)
    (files : Files) :
    let first := m.run fmt (Enumerator.oracle p) clock fuel (.ofProgram p none) files
    let left := first.world.oracle
    let second := first.method.run fmt (Enumerator.oracle p) clock' fuel left first.files
    ∃ c₁ c₂ : Conclusion ℚ, first.result = .ok c₁ ∧ second.result = .ok c₂ ∧
      c₁.status = .completed ∧ c₂.status = .completed ∧ left.program = p ∧ left.Cleared ∧
      c₁.frontier.points = p.paretoPoints ∧
      (∀ z, z ∈ c₂.frontier.points ↔ z ∈ left.outcomesLeft ∧
        ∀ y ∈ left.outcomesLeft, y.z1 ≤ z.z1 → y.z2 ≤ z.z2 → y = z) ∧
      (∀ s ∈ c₁.frontier.supported, s.toPoint ∈ c₂.frontier.points) ∧
      (∀ s ∈ c₁.frontier.all, s ∈ c₁.frontier.supported ∨
        ∃ mask, p.FeasibleMask mask ∧ p.maskOutcome mask = s.toPoint ∧ ¬left.Admits mask) ∧
      (c₂.frontier.points = c₁.frontier.points ↔
        ∀ z ∈ c₁.frontier.points, z ∈ left.outcomesLeft) := by
  intro first left second
  have hfills := Run.fills_ranking hp hstrategy clock none fuel
  obtain ⟨c₁, hrun₁, hstatus₁⟩ := exists_run_completed hp htol fmt files hfills hfeasible
    ⟨rfl, hclock⟩ (not_le.2 hfuel)
  have hpoints₁ := (concludes_of_run hp htol hfills hrun₁).points_eq hstatus₁
  have hok := hrun₁
  rw [run_result] at hok
  obtain ⟨hchain, hanchored, masks, hrecorded, hleft⟩ :=
    Run.recorded_of_session_ok hp hstrategy htol hclock hok
  replace hleft : left.OnlyExcludes p masks := by
    change first.world.oracle.OnlyExcludes p masks
    rw [run_world]
    exact hleft
  have hsub := Program.outcomes_cut_subset hrecorded.lt
  have houtcomes := hleft.outcomes_cut hrecorded.lt
  -- the second run is one on the program without the assignments that the first one recorded
  have hsecond : second.result = (m.run fmt (Enumerator.oracle (p.cut masks)) clock' fuel
      (.ofProgram (p.cut masks) none) files).result := by
    rw [run_result, run_result, run_config]
    exact Run.session_cut hrecorded.lt m.config fuel clock' hleft
  have hkept : ∀ s ∈ c₁.frontier.supported, s.toPoint ∈ (p.cut masks).outcomes :=
    fun s hs => hrecorded.mem_outcomes_cut hchain hs
  have hfeasible' : ∃ x, (p.cut masks).Feasible x := by
    obtain ⟨s, hs, -⟩ := hanchored.head
    obtain ⟨x, hx, -⟩ := hkept s (List.mem_of_mem_head? hs)
    exact ⟨x, hx⟩
  have hfills' := Run.fills_ranking (hp.cut masks) hstrategy clock' none fuel
  obtain ⟨c₂, hrun₂, hstatus₂⟩ := exists_run_completed (hp.cut masks) htol fmt files hfills'
    hfeasible' ⟨rfl, hclock'⟩ (not_le.2 hfuel)
  have hpoints₂ := (concludes_of_run (hp.cut masks) htol hfills' hrun₂).points_eq hstatus₂
  have hmem₂ : ∀ z, z ∈ c₂.frontier.points ↔ (p.cut masks).IsPareto z := by
    intro z
    rw [hpoints₂, Program.mem_paretoPoints_iff]
  refine ⟨c₁, c₂, hrun₁, hsecond.trans hrun₂, hstatus₁, hstatus₂, hleft.program, hleft.cleared,
    hpoints₁, ?_, ?_, ?_, ?_⟩
  · intro z
    rw [hmem₂, ← houtcomes]
    exact ⟨fun hz => ⟨hz.mem, hz.eq_of_le⟩, fun hz => ⟨hz.1, hz.2⟩⟩
  · intro s hs
    exact (hmem₂ _).2 ((hchain.supported s hs).isPareto.of_subset hsub (hkept s hs))
  · intro s hs
    refine (hrecorded.accounts s hs).imp_right ?_
    rintro ⟨mask, hmask, heq⟩
    refine ⟨mask, hrecorded.feasible mask hmask, heq, ?_⟩
    rw [hleft.admits_iff hrecorded.lt, Program.feasibleMask_cut_iff hrecorded.lt]
    exact fun h => h.2 hmask
  · constructor
    · intro heq z hz
      rw [← houtcomes]
      exact ((hmem₂ z).1 (heq ▸ hz)).mem
    · intro hall
      rw [hpoints₂, hpoints₁]
      refine Program.paretoPoints_eq_of_subset hsub fun z hz => ?_
      rw [houtcomes]
      exact hall z (hpoints₁ ▸ (p.mem_paretoPoints_iff z).2 hz)

/-- A run by ranking on three items, and a second one with the oracle that it leaves. -/
def rankTwicePickOne : Ran ℚ (Enumerator ℚ) × Ran ℚ (Enumerator ℚ) :=
  let first := ({ config := .plain .ranking } : Method ℚ).run .bare (Enumerator.oracle pickOne)
    .still 9 (.ofProgram pickOne none) .empty
  (first, first.method.run .bare (Enumerator.oracle pickOne) .still 9 first.world.oracle
    first.files)

theorem points_rankTwicePickOne :
    (rankTwicePickOne.1.result.toOption.map fun c => (c.status, c.frontier.points)) =
        some (.completed, [⟨1, 4⟩, ⟨3, 3⟩, ⟨4, 1⟩]) ∧
      (rankTwicePickOne.2.result.toOption.map fun c => (c.status, c.frontier.points)) =
        some (.completed, [⟨1, 4⟩, ⟨4, 1⟩]) := by
  decide +kernel

theorem points_ne_of_rankTwicePickOne {c₁ c₂ : Conclusion ℚ}
    (h₁ : rankTwicePickOne.1.result = .ok c₁) (h₂ : rankTwicePickOne.2.result = .ok c₂) :
    c₂.frontier.points ≠ c₁.frontier.points := by
  obtain ⟨hfirst, hsecond⟩ := points_rankTwicePickOne
  rw [h₁] at hfirst
  rw [h₂] at hsecond
  have hpoints₁ : c₁.frontier.points = _ := (Prod.mk.inj (Option.some.inj hfirst)).2
  have hpoints₂ : c₂.frontier.points = _ := (Prod.mk.inj (Option.some.inj hsecond)).2
  rw [hpoints₁, hpoints₂]
  decide

/-- Of the three items the supported ones are found again, and one outcome is left to no
assignment. -/
theorem run_ranking_again_pickOne :
    ∃ c₁ c₂, rankTwicePickOne.1.result = .ok c₁ ∧ rankTwicePickOne.2.result = .ok c₂ ∧
      c₁.status = .completed ∧ c₂.status = .completed ∧
      c₁.frontier.points = pickOne.paretoPoints ∧
      (∀ s ∈ c₁.frontier.supported, s.toPoint ∈ c₂.frontier.points) ∧
      ¬∀ z ∈ c₁.frontier.points, z ∈ rankTwicePickOne.1.world.oracle.outcomesLeft := by
  obtain ⟨c₁, c₂, hfirst, hsecond, hstatus₁, hstatus₂, -, -, hpoints₁, -, hkept, -, hiff⟩ :=
    run_ranking_again (m := { config := .plain .ranking }) wholeObjectives_pickOne feasible_pickOne
      rfl (Config.fine_plain .ranking) .bare (Config.neverOver_plain .ranking)
      (Config.neverOver_plain .ranking) (show 2 ^ pickOne.dimension < 9 by decide) .empty
  exact ⟨c₁, c₂, hfirst, hsecond, hstatus₁, hstatus₂, hpoints₁, hkept,
    fun hall => points_ne_of_rankTwicePickOne hfirst hsecond (hiff.2 hall)⟩

/-- Both runs on the three items complete, but not with the same outcomes. -/
theorem ranking_again_loses_outcome :
    pickOne.WholeObjectives ∧ (∃ x, pickOne.Feasible x) ∧ NeverOver (.plain .ranking) .still ∧
      ¬∃ c₁ c₂, rankTwicePickOne.1.result = .ok c₁ ∧ rankTwicePickOne.2.result = .ok c₂ ∧
        c₁.status = .completed ∧ c₂.status = .completed ∧
        c₂.frontier.points = c₁.frontier.points := by
  refine ⟨wholeObjectives_pickOne, feasible_pickOne, Config.neverOver_plain .ranking, ?_⟩
  rintro ⟨c₁, c₂, h₁, h₂, -, -, heq⟩
  exact points_ne_of_rankTwicePickOne h₁ h₂ heq

end Method

end Biobjective
