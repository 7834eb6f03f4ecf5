import Biobjective.Proofs.Conduct

/-!
# Fatal errors

On the enumerator of a feasible program the first phase never meets an infeasible answer.
Every solve but the second one of an anchor is without ranges, and there the optimum of the
first solve still passes under the cap, since the tolerance of ties is not negative. The
second phase takes an infeasible answer for the end of a box. So a run fails with a fault
just if the program is infeasible, and then by its first solve: `Method.run_fault_iff`.
-/

namespace Biobjective

open Phase

/-- The enumerator of an infeasible program finds nothing and examines nothing, so that a limit
does not matter. -/
theorem Enumerator.answer_of_infeasible {e : Enumerator ℚ} (h : ¬∃ x, e.program.Feasible x) :
    e.answer = .infeasible := by
  have hmasks : ∀ mask, ¬e.program.FeasibleMask mask := fun mask hmask => h ⟨_, hmask.2⟩
  have hrows : (grayMasks e.program.dimension).filter e.program.rowsHold = [] := by
    apply List.filter_eq_nil_iff.2
    intro mask hmem hrows
    exact hmasks mask (Program.feasibleMask_iff.2 ⟨hmem, hrows⟩)
  rcases e.answer_cases_of_limit with ⟨nodes, -, -, limit, -, hlt⟩ | heq
  · rw [hrows] at hlt
    exact absurd hlt (Nat.not_lt_zero _)
  · rw [heq, leastAnswer]
    cases hmin : (e.admitted (grayMasks e.program.dimension)).argmin e.valueAt with
    | none => rfl
    | some mask => exact absurd (e.mem_admitted_iff.1 (List.argmin_mem hmin)).1 (hmasks mask)

theorem Interval.allows_cap_self {level tie : ℚ} (htie : 0 ≤ tie) :
    (Interval.mk none (some (level + tie))).allows level = true := by
  simp only [allows, Scalar.isNumber_rat, Bool.true_and, decide_eq_true_eq, Scalar.slack_rat]
  linarith

section Feasible

variable {p : Program ℚ} {cfg : Config ℚ} {c : Clock} {limit? : Option ℕ}

/-- The cut is due to a limit on the time or on the count of nodes. -/
def Cut.Limited (cut : Cut) : Prop := cut = .timeout ∨ cut = .overflow

/-- Nothing is excluded and no objective has a range. -/
def Unrestricted (p : Program ℚ) (limit? : Option ℕ) (w : World ℚ (Enumerator ℚ)) : Prop :=
  ∃ weights, InForce (asking p limit? weights .unbounded .unbounded) w

/-- Under no ranges a solve finds an optimum, unless a limit cuts it. -/
theorem ensures_ask {α : Type} (hp : p.outcomes.Nonempty) {w : World ℚ (Enumerator ℚ)}
    (hw : Unrestricted p limit? w) (weights : Weights ℚ) (stage : Stage)
    {f : Optimum ℚ → Phase ℚ α} {q : Progress ℚ}
    {ok : α → Progress ℚ → World ℚ (Enumerator ℚ) → Prop}
    (hf : ∀ best q' w', IsBest p weights .unbounded .unbounded best → Unrestricted p limit? w' →
      Ensures (Enumerator.oracle p) c (f best) q' w' ok fun cut _ _ => cut.Limited) :
    Ensures (Enumerator.oracle p) c
      (do
        Phase.tell (.weights weights)
        let best ← Phase.demand stage (← Phase.solve)
        f best) q w ok fun cut _ _ => cut.Limited := by
  obtain ⟨before, hw⟩ := hw
  have hask : InForce (asking p limit? weights .unbounded .unbounded)
      (w.tell (Enumerator.oracle p) (.weights weights)) := hw.tell p (.weights weights)
  simp only [ensures_bind, ensures_tell]
  apply ensures_solve_of hask
  · exact fun _ => Or.inr rfl
  · intro a work w1 hanswer hw1
    rcases outcome_of_answers hanswer with ⟨best, rfl, hbest⟩ | ⟨rfl, hnone⟩ | ⟨nodes, rfl, -⟩
    · rw [ensures_demand_optimal]
      exact hf best _ w1 hbest ⟨_, hw1⟩
    · obtain ⟨y, hy⟩ := hp
      exact absurd ⟨by simp, by simp⟩ (hnone y hy)
    · rw [ensures_demand_timedOut]
      exact Or.inl rfl

theorem ensures_checkTime_unrestricted {α : Type} {w : World ℚ (Enumerator ℚ)}
    (hw : Unrestricted p limit? w) {f : Unit → Phase ℚ α} {q : Progress ℚ}
    {ok : α → Progress ℚ → World ℚ (Enumerator ℚ) → Prop}
    (hf : ∀ w', Unrestricted p limit? w' →
      Ensures (Enumerator.oracle p) c (f ()) q w' ok fun cut _ _ => cut.Limited) :
    Ensures (Enumerator.oracle p) c (Phase.checkTime cfg.timeLimit >>= f) q w ok
      fun cut _ _ => cut.Limited := by
  rw [ensures_bind, ensures_checkTime]
  split
  · exact Or.inl rfl
  · exact hf _ hw

theorem Anchor.ensures_find_unrestricted (hp : p.outcomes.Nonempty)
    (htie : 0 ≤ cfg.tolerances.tie) (a : Anchor) {q : Progress ℚ} {w : World ℚ (Enumerator ℚ)}
    (hw : Unrestricted p limit? w) :
    Ensures (Enumerator.oracle p) c (a.find cfg) q w (fun _ _ w' => Unrestricted p limit? w')
      fun cut _ _ => cut.Limited := by
  apply ensures_ask hp hw
  intro level q1 w1 hlevel hw1
  apply ensures_checkTime_unrestricted hw1
  rintro w2 ⟨weights, hw2⟩
  simp only [ensures_bind, ensures_tell]
  have hw3 := (hw2.tell p (.bound a.primary
    ⟨none, some (a.primary.of level.toPoint + cfg.tolerances.tie)⟩)).tell p (.weights a.tieWeights)
  rw [follow_bound_primary] at hw3
  change InForce (asking p limit? a.tieWeights
    (a.capped (a.primary.of level.toPoint + cfg.tolerances.tie) .first)
    (a.capped (a.primary.of level.toPoint + cfg.tolerances.tie) .second)) _ at hw3
  apply ensures_solve_of hw3
  · exact fun _ => Or.inr rfl
  · intro answer work w4 hanswer hw4
    have hw5 := hw4.tell p (.clear a.primary)
    rw [follow_clear_primary] at hw5
    rcases outcome_of_answers hanswer with ⟨best, rfl, -⟩ | ⟨rfl, hnone⟩ | ⟨nodes, rfl, -⟩
    · rw [ensures_demand_optimal, ensures_pure]
      exact ⟨_, hw5⟩
    · refine absurd ?_ (hnone _ hlevel.mem)
      rw [a.allows_capped_iff]
      exact Interval.allows_cap_self htie
    · rw [ensures_demand_timedOut]
      exact Or.inl rfl

namespace Supported

theorem ensures_refine_unrestricted (hp : p.outcomes.Nonempty) (chords left : ℕ) {q : Progress ℚ}
    {w : World ℚ (Enumerator ℚ)} (hw : Unrestricted p limit? w) :
    Ensures (Enumerator.oracle p) c (refine cfg chords left) q w (fun _ _ _ => True)
      fun cut _ _ => cut.Limited := by
  induction chords generalizing left q w with
  | zero => exact (ensures_pure ()).2 trivial
  | succ chords ih =>
      rw [refine, ensures_bind, ensures_frontier]
      dsimp only
      split
      · apply ensures_ask hp hw
        intro best q1 w1 hbest hw1
        split
        · rw [ensures_bind, ensures_modifyFrontier]
          exact ensures_checkTime_unrestricted hw1 fun w2 hw2 => ih left hw2
        · exact ensures_checkTime_unrestricted hw1 fun w2 hw2 => ih (left + 1) hw2
      · exact (ensures_pure ()).2 trivial

theorem ensures_search_unrestricted (hp : p.outcomes.Nonempty) (htie : 0 ≤ cfg.tolerances.tie)
    {q : Progress ℚ} {w : World ℚ (Enumerator ℚ)} (hw : Unrestricted p limit? w) :
    Ensures (Enumerator.oracle p) c (search cfg) q w (fun _ _ _ => True)
      fun cut _ _ => cut.Limited := by
  rw [search]
  refine (Anchor.ensures_find_unrestricted hp htie .upperLeft hw).bind ?_
  intro upperLeft q1 w1 hw1
  rw [ensures_bind, ensures_modifyFrontier]
  apply ensures_checkTime_unrestricted hw1
  intro w2 hw2
  refine (Anchor.ensures_find_unrestricted hp htie .lowerRight hw2).bind ?_
  intro lowerRight q3 w3 hw3
  split
  · exact (ensures_pure ()).2 trivial
  · rw [ensures_bind, ensures_modifyFrontier]
    exact ensures_checkTime_unrestricted hw3 fun w4 hw4 => ensures_refine_unrestricted hp _ _ hw4

/-- A phase that runs out of time ends, so that only the count of nodes can cut it. -/
theorem eq_overflow_of_phase (hp : p.outcomes.Nonempty) (htie : 0 ≤ cfg.tolerances.tie)
    {q q' : Progress ℚ} {w w' : World ℚ (Enumerator ℚ)} (hw : Unrestricted p limit? w) {cut : Cut}
    (he : hold (Enumerator.oracle p) c (phase cfg) q w = ((.error cut, q'), w')) :
    cut = .overflow := by
  have hends := ensures_search_unrestricted (c := c) (q := q) hp htie hw
  rw [hold_phase] at he
  rcases hsearch : hold (Enumerator.oracle p) c (search cfg) q w with ⟨⟨cut' | _, q1⟩, w1⟩
  · rw [hsearch] at he
    rcases hends.error_of_hold hsearch with rfl | rfl
    · cases he
    · cases he
      rfl
  · rw [hsearch] at he
    cases he

end Supported

end Feasible

namespace Run

/-- The first solve shows a program to be infeasible. -/
theorem firstPhase_of_infeasible {p : Program ℚ} (h : ¬∃ x, p.Feasible x) (cfg : Config ℚ)
    (clock : Clock) (limit? : Option ℕ) :
    ∃ q w, firstPhase cfg (Enumerator.oracle p) clock (.ofProgram p limit?) =
      ((.error (.infeasible .upperLeftAnchor), q), w) ∧ w.moment.solves = 1 := by
  have hanswer : ((World.tell (Enumerator.oracle p) (.weights Anchor.upperLeft.levelWeights)
      (.start (Enumerator.ofProgram p limit?))).solve (Enumerator.oracle p)).1 = .infeasible :=
    Enumerator.answer_of_infeasible h
  obtain ⟨q, w, hfind, hsolves⟩ : ∃ q w, hold (Enumerator.oracle p) clock
      (Anchor.upperLeft.find cfg) { frontier := .empty cfg.tolerances.dominance }
      (.start (.ofProgram p limit?)) = ((.error (.infeasible .upperLeftAnchor), q), w) ∧
        w.moment.solves = 1 := by
    rw [Anchor.find, hold_tell_bind, hold_solve_bind, hanswer]
    exact ⟨_, _, rfl, rfl⟩
  refine ⟨q, w, ?_, hsolves⟩
  rw [firstPhase, Supported.hold_phase, Supported.search, hold_bind, hfind]
  rfl

/-- On a feasible program no cut of either phase is fatal. -/
theorem session_ne_fault {p : Program ℚ} (hfeasible : ∃ x, p.Feasible x) {cfg : Config ℚ}
    (htie : 0 ≤ cfg.tolerances.tie) (clock : Clock) (limit? : Option ℕ) (fuel : ℕ)
    (fault : Fault) :
    ((session cfg (Enumerator.oracle p).dimension fuel).exec (Enumerator.oracle p) clock
      (.start (.ofProgram p limit?))).1 ≠ .error (.fault fault) := by
  have hnonempty := Set.nonempty_iff_ne_empty.2 (Program.outcomes_ne_empty hfeasible)
  have hnotFatal : ∀ cut : Cut, ¬cut.Fatal →
      (.error cut.failure : Except Failure (Conclusion ℚ)) ≠ .error (.fault fault) :=
    fun cut hcut heq => hcut (Cut.fatal_of_failure_eq (Except.error.inj heq))
  rw [exec_session cfg _ p.dimension_ne_zero]
  rcases hfirst : firstPhase cfg (Enumerator.oracle p) clock (.ofProgram p limit?) with
    ⟨⟨cut | first, q⟩, w⟩
  · have hcut := Supported.eq_overflow_of_phase hnonempty htie ⟨_, inForce_start p limit?⟩ hfirst
    subst hcut
    exact hnotFatal .overflow nofun
  · rw [exec_rest]
    rcases hsecond : hold (Enumerator.oracle p) clock (secondPhase cfg _ fuel) q
      (w.time clock).2 with ⟨⟨cut | second, q'⟩, w'⟩
    · apply hnotFatal cut
      exact not_fatal_secondPhase _ clock cfg _ fuel q _ (congrArg (·.1.1) hsecond)
    · exact nofun

end Run

namespace Method

/-- A run fails with a fault just if no assignment satisfies the rows, whatever the limit on
the nodes, the clock and the configuration. The fault is that of the first anchor, it is found
by the first solve, and it leaves no statistics. -/
theorem run_fault_iff (p : Program ℚ) (m : Method ℚ) (htie : 0 ≤ m.config.tolerances.tie)
    (fmt : ReportFormat ℚ) (clock : Clock) (limit? : Option ℕ) (fuel : ℕ) (files : Files) :
    let ran := m.run fmt (Enumerator.oracle p) clock fuel (.ofProgram p limit?) files
    (∀ fault, ran.result = .error (.fault fault) ↔
      (¬∃ x, p.Feasible x) ∧ fault = .infeasible .upperLeftAnchor) ∧
    ((¬∃ x, p.Feasible x) →
      ran.world.moment.solves = 1 ∧ ran.method.state = .failed ∧ ran.method.statistics = {}) := by
  intro ran
  have hinfeasible : (¬∃ x, p.Feasible x) →
      ran.result = .error (.fault (.infeasible .upperLeftAnchor)) ∧
        ran.world.moment.solves = 1 := by
    intro h
    obtain ⟨q, w, hfirst, hsolves⟩ := Run.firstPhase_of_infeasible h m.config clock limit?
    simp only [ran, run_result, run_world,
      Run.exec_session m.config (Enumerator.oracle p) p.dimension_ne_zero, hfirst]
    exact ⟨rfl, hsolves⟩
  refine ⟨fun fault => ⟨fun hfault => ?_, ?_⟩, fun h => ?_⟩
  · have h : ¬∃ x, p.Feasible x := by
      intro hfeasible
      simp only [ran, run_result] at hfault
      exact Run.session_ne_fault hfeasible htie clock limit? fuel fault hfault
    have heq := hfault.symm.trans (hinfeasible h).1
    simp only [Except.error.injEq, Failure.fault.injEq] at heq
    exact ⟨h, heq⟩
  · rintro ⟨h, rfl⟩
    exact (hinfeasible h).1
  · have hmethod : ran.method = m.after ran.result := run_method m fmt _ clock fuel _ files
    rw [hmethod, (hinfeasible h).1]
    exact ⟨(hinfeasible h).2, rfl, rfl⟩

/-- Two items, of which three are to be taken. -/
def takeThree : Program ℚ :=
  { c1 := [1, 2]
    c2 := [2, 1]
    rows := [⟨[1, 1], .atLeast, 3⟩]
    c1_ne_nil := by decide
    c1_length_le := by decide
    c2_length := by decide
    coefs_length := by decide }

theorem not_feasible_takeThree : ¬∃ x, takeThree.Feasible x := by
  rintro ⟨x, hx⟩
  obtain ⟨a, b, rfl⟩ := List.length_eq_two.1 hx.length_eq
  have hrow := hx.satisfied ⟨[1, 1], .atLeast, 3⟩ List.mem_cons_self
  rcases hx.zero_or_one a (by simp) with rfl | rfl <;>
    rcases hx.zero_or_one b (by simp) with rfl | rfl <;>
    norm_num [Row.satisfied, dot, Scalar.slack] at hrow

/-- With a limit of no nodes at all, and no fuel. -/
theorem run_fault_iff_takeThree :
    let ran := ({ config := .plain .ranking } : Method ℚ).run .bare (Enumerator.oracle takeThree)
      .still 0 (.ofProgram takeThree (some 0)) .empty
    ran.result = .error (.fault (.infeasible .upperLeftAnchor)) ∧ ran.world.moment.solves = 1 := by
  obtain ⟨hfault, hrest⟩ := run_fault_iff takeThree { config := .plain .ranking }
    (Config.fine_plain .ranking).tie_pos.le .bare .still (some 0) 0 .empty
  exact ⟨(hfault _).2 ⟨not_feasible_takeThree, rfl⟩, (hrest not_feasible_takeThree).1⟩

end Method

end Biobjective
