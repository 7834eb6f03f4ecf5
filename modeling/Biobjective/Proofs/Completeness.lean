import Biobjective.Method
import Biobjective.Proofs.FirstPhase
import Biobjective.Proofs.RankingPhase
import Biobjective.Proofs.Reference
import Biobjective.Proofs.SplittingPhase

/-!
# What a run concludes with

A run on an enumerating oracle concludes with a sound frontier, however it was
cut short, and a completed run with all Pareto outcomes. Only time and a limit
on the nodes cut a run short, and only an infeasible program or too little fuel
makes it fail. The main results are `Method.run_splitting_complete`,
`Method.run_ranking_complete` and `Method.run_sound`.
-/

namespace Biobjective

namespace Run

/-- How a run concludes: with a sound frontier, with all Pareto outcomes if it is
complete, and only a hindrance leaves it incomplete. -/
structure Concludes (p : Program ℚ) (cfg : Config ℚ) (clock : Clock) (limit? : Option ℕ)
    (status : Status) (f : Frontier ℚ) : Prop where
  sound : f.Sound p
  complete : status = .completed → ∀ z, p.IsPareto z → z ∈ f.points
  completed : Unhindered cfg clock limit? → status = .completed

/-- A complete frontier is the reference answer. -/
theorem Concludes.points_eq {p : Program ℚ} {cfg : Config ℚ} {clock : Clock}
    {limit? : Option ℕ} {status : Status} {f : Frontier ℚ}
    (h : Concludes p cfg clock limit? status f) (hstatus : status = .completed) :
    f.points = p.paretoPoints := by
  refine h.sound.staircase.eq_of_mem_iff p.staircase_paretoPoints fun z => ?_
  rw [p.mem_paretoPoints_iff z]
  exact ⟨h.sound.pareto z, h.complete hstatus z⟩

/-- A first phase and a second phase on what it ends with make a conclusion. -/
theorem Concludes.of_ended {p : Program ℚ} {cfg : Config ℚ} {clock : Clock} {limit? : Option ℕ}
    {k : ℕ} {q q1 q2 : Progress ℚ} {w1 : World ℚ (Enumerator ℚ)} {first second : Status}
    (hfirst : Supported.Ended p cfg clock limit? k q first q1 w1)
    (hsecond : q1.frontier.Filled p cfg clock limit? second q2.frontier) :
    Concludes p cfg clock limit? (first.and second) q2.frontier := by
  refine ⟨hsecond.extends_from.sound, fun hstatus z hz => ?_, fun hun => ?_⟩
  · obtain ⟨h1, h2⟩ := Status.and_eq_completed_iff.1 hstatus
    refine (hfirst.searched h1).anchored.mem_points hfirst.chain ?_ (hsecond.closes h2) hz
    intro s hs
    rw [← hfirst.all_eq] at hs
    exact hsecond.extends_from.subset _ (Frontier.mem_points hs)
  · exact Status.and_eq_completed_iff.2 ⟨hfirst.completed hun, hsecond.completed hun⟩

/-- The second phase fills the gaps of what a first phase ends with, unless it
falls short of fuel. -/
def Fills (p : Program ℚ) (cfg : Config ℚ) (clock : Clock) (limit? : Option ℕ) (fuel : ℕ)
    (short : Prop) : Prop :=
  ∀ (q : Progress ℚ) (w : World ℚ (Enumerator ℚ)), Chain p q.frontier.supported →
    q.frontier.Sound p → q.frontier.all = q.frontier.supported → Excluding p limit? [] w →
    q.Room p (5 * 2 ^ p.dimension) →
    Phase.Ensures (Enumerator.oracle p) clock (secondPhase cfg p.dimension fuel) q w
      (fun status q' _ => q.frontier.Filled p cfg clock limit? status q'.frontier)
      (fun _ _ _ => short)

theorem fills_splitting {p : Program ℚ} (hp : p.WholeObjectives) {cfg : Config ℚ}
    (hcfg : cfg.strategy = .splitting) (clock : Clock) (limit? : Option ℕ) (fuel : ℕ) :
    Fills p cfg clock limit? fuel (fuel ≤ 2 * 2 ^ p.dimension) := by
  intro q w hchain hsound _ hw hroom
  rw [secondPhase, hcfg]
  exact Splitting.ensures_phase hp fuel hchain hsound hw hroom

theorem fills_ranking {p : Program ℚ} (hp : p.WholeObjectives) {cfg : Config ℚ}
    (hcfg : cfg.strategy = .ranking) (clock : Clock) (limit? : Option ℕ) (fuel : ℕ) :
    Fills p cfg clock limit? fuel (fuel ≤ 2 ^ p.dimension) := by
  intro q w hchain hsound hall hw hroom
  rw [secondPhase, hcfg]
  exact Ranking.ensures_phase hp fuel hchain hsound hall hw (hroom.mono (by omega))

theorem exists_fills {p : Program ℚ} (hp : p.WholeObjectives) (cfg : Config ℚ) (clock : Clock)
    (limit? : Option ℕ) (fuel : ℕ) : ∃ short, Fills p cfg clock limit? fuel short := by
  cases hcfg : cfg.strategy with
  | splitting => exact ⟨_, fills_splitting hp hcfg clock limit? fuel⟩
  | ranking => exact ⟨_, fills_ranking hp hcfg clock limit? fuel⟩

open Phase in
theorem ensures_phases {p : Program ℚ} (hp : p.WholeObjectives) {cfg : Config ℚ}
    (htol : cfg.tolerances.Fine) {clock : Clock} {limit? : Option ℕ} {fuel : ℕ} {short : Prop}
    (hfills : Fills p cfg clock limit? fuel short) :
    Ensures (Enumerator.oracle p) clock (phases cfg p.dimension fuel)
      { frontier := .empty cfg.tolerances.dominance } (.start (Enumerator.ofProgram p limit?))
      (fun r q' _ => Concludes p cfg clock limit? r.1 q'.frontier)
      (fun _ _ _ => p.outcomes = ∅ ∨ short) := by
  simp only [phases, ensures_bind, ensures_elapsed, ensures_frontier]
  refine (Supported.ensures_phase (k := 5 * 2 ^ p.dimension) hp htol.tie_pos htol.tie_le_half rfl
    (inForce_start p limit?) (Progress.room_start p _ (by omega))).mono ?_ ?_
  · intro first q1 w1 hended
    have hsound : q1.frontier.Sound p := .of_chain hended.chain hended.all_eq
      (hended.eps_eq ▸ htol.dominance_nonneg) (hended.eps_eq ▸ htol.dominance_lt_one)
    refine (hfills q1 _ hended.chain hsound hended.all_eq ?_ hended.room).mono ?_ ?_
    · obtain ⟨weights, range1, range2, hw⟩ := hended.unexcluding
      exact ⟨weights, range1, range2, hw.time clock⟩
    · intro second q2 w2 hfilled
      unfold Ensures
      exact Concludes.of_ended hended hfilled
    · intro cut q2 w2 hshort
      exact Or.inr hshort
  · rintro cut q1 w1 ⟨stage, -, hempty⟩
    exact Or.inl hempty

/-- What the phases of a run ensure holds of its conclusion. -/
theorem session_of_ensures {p : Program ℚ} {cfg : Config ℚ} {clock : Clock} {fuel : ℕ}
    {e : Enumerator ℚ} {good : Status → Frontier ℚ → Prop} {bad : Prop}
    (h : Phase.Ensures (Enumerator.oracle p) clock (phases cfg p.dimension fuel)
      { frontier := .empty cfg.tolerances.dominance } (.start e)
      (fun r q' _ => good r.1 q'.frontier) (fun _ _ _ => bad)) :
    match ((session cfg p.dimension fuel).exec (Enumerator.oracle p) clock (.start e)).1 with
    | .ok c => good c.status c.frontier
    | .error _ => bad := by
  unfold Phase.Ensures at h
  rw [session, if_neg p.dimension_ne_zero, Session.exec_bind]
  rcases hexec : (phases cfg p.dimension fuel
    { frontier := .empty cfg.tolerances.dominance }).exec (Enumerator.oracle p) clock (.start e)
    with ⟨⟨cut | r, q⟩, w⟩
  · rw [hexec] at h
    exact h
  · rw [hexec] at h
    exact h

/-- A session concludes, or it fails for want of a feasible outcome or of fuel. -/
theorem session_cases {p : Program ℚ} (hp : p.WholeObjectives) {cfg : Config ℚ}
    (htol : cfg.tolerances.Fine) {clock : Clock} {limit? : Option ℕ} {fuel : ℕ} {short : Prop}
    (hfills : Fills p cfg clock limit? fuel short) :
    match ((session cfg p.dimension fuel).exec (Enumerator.oracle p) clock
      (.start (Enumerator.ofProgram p limit?))).1 with
    | .ok c => Concludes p cfg clock limit? c.status c.frontier
    | .error _ => p.outcomes = ∅ ∨ short :=
  session_of_ensures (ensures_phases hp htol hfills)

end Run

/-- Fractions as they are and times in nanoseconds. -/
def ReportFormat.bare : ReportFormat ℚ := ⟨toString, fun d => toString d.nanos⟩

namespace Method

theorem run_result_world {K σ : Type} [Scalar K] (m : Method K) (fmt : ReportFormat K)
    (o : Oracle K σ) (clock : Clock) (fuel : ℕ) (oracle : σ) (files : Files) :
    ((m.run fmt o clock fuel oracle files).result, (m.run fmt o clock fuel oracle files).world) =
      (Run.session m.config o.dimension fuel).exec o clock (.start oracle) := by
  rw [run]
  rcases (Run.session m.config o.dimension fuel).exec o clock (.start oracle) with ⟨result, world⟩
  cases result with
  | error failure => rfl
  | ok c =>
      cases m.config.output? with
      | none => rfl
      | some path =>
          simp only
          cases Report.persist fmt files path c.statistics c.frontier with
          | error fault => rfl
          | ok files => rfl

theorem run_result {K σ : Type} [Scalar K] (m : Method K) (fmt : ReportFormat K) (o : Oracle K σ)
    (clock : Clock) (fuel : ℕ) (oracle : σ) (files : Files) :
    (m.run fmt o clock fuel oracle files).result =
      ((Run.session m.config o.dimension fuel).exec o clock (.start oracle)).1 :=
  congrArg Prod.fst (run_result_world m fmt o clock fuel oracle files)

theorem run_world {K σ : Type} [Scalar K] (m : Method K) (fmt : ReportFormat K) (o : Oracle K σ)
    (clock : Clock) (fuel : ℕ) (oracle : σ) (files : Files) :
    (m.run fmt o clock fuel oracle files).world =
      ((Run.session m.config o.dimension fuel).exec o clock (.start oracle)).2 :=
  congrArg Prod.snd (run_result_world m fmt o clock fuel oracle files)

theorem run_method {K σ : Type} [Scalar K] (m : Method K) (fmt : ReportFormat K) (o : Oracle K σ)
    (clock : Clock) (fuel : ℕ) (oracle : σ) (files : Files) :
    (m.run fmt o clock fuel oracle files).method =
      m.after (m.run fmt o clock fuel oracle files).result := by
  rw [run]
  rcases (Run.session m.config o.dimension fuel).exec o clock (.start oracle) with ⟨result, world⟩
  cases result with
  | error failure => rfl
  | ok c =>
      cases m.config.output? with
      | none => rfl
      | some path =>
          simp only
          cases Report.persist fmt files path c.statistics c.frontier with
          | error fault => rfl
          | ok files => rfl

theorem run_cases {p : Program ℚ} (hp : p.WholeObjectives) {m : Method ℚ}
    (htol : m.config.tolerances.Fine) (fmt : ReportFormat ℚ) {clock : Clock}
    {limit? : Option ℕ} {fuel : ℕ} (files : Files) {short : Prop}
    (hfills : Run.Fills p m.config clock limit? fuel short) :
    match (m.run fmt (Enumerator.oracle p) clock fuel (.ofProgram p limit?) files).result with
    | .ok c => Run.Concludes p m.config clock limit? c.status c.frontier
    | .error _ => p.outcomes = ∅ ∨ short := by
  rw [run_result]
  exact Run.session_cases hp htol hfills

theorem concludes_of_run {p : Program ℚ} (hp : p.WholeObjectives) {m : Method ℚ}
    (htol : m.config.tolerances.Fine) {fmt : ReportFormat ℚ} {clock : Clock}
    {limit? : Option ℕ} {fuel : ℕ} {files : Files} {short : Prop}
    (hfills : Run.Fills p m.config clock limit? fuel short) {c : Conclusion ℚ}
    (hrun : (m.run fmt (Enumerator.oracle p) clock fuel (.ofProgram p limit?) files).result =
      .ok c) : Run.Concludes p m.config clock limit? c.status c.frontier := by
  have hcases := run_cases hp htol fmt files hfills
  rw [hrun] at hcases
  exact hcases

theorem exists_run_completed {p : Program ℚ} (hp : p.WholeObjectives) {m : Method ℚ}
    (htol : m.config.tolerances.Fine) (fmt : ReportFormat ℚ) {clock : Clock}
    {limit? : Option ℕ} {fuel : ℕ} (files : Files) {short : Prop}
    (hfills : Run.Fills p m.config clock limit? fuel short) (hfeasible : ∃ x, p.Feasible x)
    (hun : Unhindered m.config clock limit?) (hshort : ¬short) :
    ∃ c, (m.run fmt (Enumerator.oracle p) clock fuel (.ofProgram p limit?) files).result = .ok c ∧
      c.status = .completed := by
  have hcases := run_cases hp htol fmt files hfills
  cases hrun : (m.run fmt (Enumerator.oracle p) clock fuel (.ofProgram p limit?) files).result with
  | ok c =>
      rw [hrun] at hcases
      exact ⟨c, rfl, hcases.completed hun⟩
  | error failure =>
      rw [hrun] at hcases
      rcases hcases with hempty | h
      · exact absurd hempty (Program.outcomes_ne_empty hfeasible)
      · exact absurd h hshort

/-- The fuel of the commands is enough for every program. -/
theorem two_pow_lt_ampleFuel {K : Type} (p : Program K) : 2 ^ (p.dimension + 1) < ampleFuel := by
  have hdim : p.dimension + 1 ≤ maxVariables + 1 := Nat.succ_le_succ p.c1_length_le
  calc 2 ^ (p.dimension + 1) ≤ 2 ^ (maxVariables + 1) := Nat.pow_le_pow_right two_pos hdim
    _ < ampleFuel := by decide

/-- A run on three items, with no limit and a clock that stands still. -/
def runPickOne (s : Strategy) : Ran ℚ (Enumerator ℚ) :=
  ({ config := .plain s } : Method ℚ).run .bare (Enumerator.oracle pickOne) .still ampleFuel
    (.ofProgram pickOne none) .empty

theorem paretoPoints_pickOne : pickOne.paretoPoints = [⟨1, 4⟩, ⟨3, 3⟩, ⟨4, 1⟩] := by
  have hpoints : pickOne.feasiblePoints.reverse = [⟨1, 4⟩, ⟨3, 3⟩, ⟨4, 1⟩] := by decide +kernel
  have hsorted : ([⟨1, 4⟩, ⟨3, 3⟩, ⟨4, 1⟩] : List (Point ℚ)).Pairwise
      fun a b => (!Program.before b a) = true := by decide +kernel
  rw [Program.paretoPoints, hpoints, List.mergeSort_of_pairwise hsorted]
  decide +kernel

/-- A run by splitting that completes has found exactly the reference answer,
whatever the clock, the limit on the nodes and the queue order. On a feasible
program a run that nothing hinders completes, if each gap may take more than
`2 ^ (dimension + 1)` solves. -/
theorem run_splitting_complete {p : Program ℚ} (hp : p.WholeObjectives) {m : Method ℚ}
    (hstrategy : m.config.strategy = .splitting) (htol : m.config.tolerances.Fine)
    (fmt : ReportFormat ℚ) (clock : Clock) (limit? : Option ℕ) (fuel : ℕ) (files : Files) :
    (∀ c, (m.run fmt (Enumerator.oracle p) clock fuel (.ofProgram p limit?) files).result = .ok c →
      c.status = .completed → c.frontier.points = p.paretoPoints) ∧
    ((∃ x, p.Feasible x) → NeverOver m.config clock → limit? = none →
      2 ^ (p.dimension + 1) < fuel →
      ∃ c, (m.run fmt (Enumerator.oracle p) clock fuel (.ofProgram p limit?) files).result = .ok c ∧
        c.status = .completed) := by
  have hfills := Run.fills_splitting hp hstrategy clock limit? fuel
  constructor
  · intro c hrun hstatus
    exact (concludes_of_run hp htol hfills hrun).points_eq hstatus
  · intro hfeasible hclock hlimit hfuel
    refine exists_run_completed hp htol fmt files hfills hfeasible ⟨hlimit, hclock⟩ ?_
    rw [Nat.pow_succ] at hfuel
    omega

/-- The run at three items, one of which only the second phase can find. -/
theorem run_splitting_complete_pickOne :
    ∃ c, (runPickOne .splitting).result = .ok c ∧
      c.frontier.points = [⟨1, 4⟩, ⟨3, 3⟩, ⟨4, 1⟩] := by
  obtain ⟨hcomplete, hcompletes⟩ := run_splitting_complete (m := { config := .plain .splitting })
    wholeObjectives_pickOne rfl (Config.fine_plain .splitting) .bare .still none ampleFuel .empty
  obtain ⟨c, hrun, hstatus⟩ := hcompletes feasible_pickOne (Config.neverOver_plain .splitting) rfl
    (two_pow_lt_ampleFuel pickOne)
  exact ⟨c, hrun, (hcomplete c hrun hstatus).trans paretoPoints_pickOne⟩

/-- A run by ranking that completes has found exactly the reference answer, also
when its time was over before the end. On a feasible program a run that nothing
hinders completes, if each gap may take more than `2 ^ dimension` solves. -/
theorem run_ranking_complete {p : Program ℚ} (hp : p.WholeObjectives) {m : Method ℚ}
    (hstrategy : m.config.strategy = .ranking) (htol : m.config.tolerances.Fine)
    (fmt : ReportFormat ℚ) (clock : Clock) (limit? : Option ℕ) (fuel : ℕ) (files : Files) :
    (∀ c, (m.run fmt (Enumerator.oracle p) clock fuel (.ofProgram p limit?) files).result = .ok c →
      c.status = .completed → c.frontier.points = p.paretoPoints) ∧
    ((∃ x, p.Feasible x) → NeverOver m.config clock → limit? = none →
      2 ^ p.dimension < fuel →
      ∃ c, (m.run fmt (Enumerator.oracle p) clock fuel (.ofProgram p limit?) files).result = .ok c ∧
        c.status = .completed) := by
  have hfills := Run.fills_ranking hp hstrategy clock limit? fuel
  constructor
  · intro c hrun hstatus
    exact (concludes_of_run hp htol hfills hrun).points_eq hstatus
  · intro hfeasible hclock hlimit hfuel
    exact exists_run_completed hp htol fmt files hfills hfeasible ⟨hlimit, hclock⟩ (not_le.2 hfuel)

theorem run_ranking_complete_pickOne :
    ∃ c, (runPickOne .ranking).result = .ok c ∧
      c.frontier.points = [⟨1, 4⟩, ⟨3, 3⟩, ⟨4, 1⟩] := by
  obtain ⟨hcomplete, hcompletes⟩ := run_ranking_complete (m := { config := .plain .ranking })
    wholeObjectives_pickOne rfl (Config.fine_plain .ranking) .bare .still none ampleFuel .empty
  obtain ⟨c, hrun, hstatus⟩ := hcompletes feasible_pickOne (Config.neverOver_plain .ranking) rfl
    ((Nat.pow_lt_pow_succ one_lt_two).trans (two_pow_lt_ampleFuel pickOne))
  exact ⟨c, hrun, (hcomplete c hrun hstatus).trans paretoPoints_pickOne⟩

/-- Whatever a run concludes with, complete or not, is a staircase of Pareto
outcomes. -/
theorem run_sound {p : Program ℚ} (hp : p.WholeObjectives) {m : Method ℚ}
    (htol : m.config.tolerances.Fine) (fmt : ReportFormat ℚ) (clock : Clock) (limit? : Option ℕ)
    (fuel : ℕ) (files : Files) {c : Conclusion ℚ}
    (hrun : (m.run fmt (Enumerator.oracle p) clock fuel (.ofProgram p limit?) files).result =
      .ok c) :
    c.frontier.all.Pairwise (fun a b => a.z1 < b.z1 ∧ b.z2 < a.z2) ∧
      ∀ s ∈ c.frontier.all, p.IsPareto s.toPoint := by
  obtain ⟨short, hfills⟩ := Run.exists_fills hp m.config clock limit? fuel
  have hsound := (concludes_of_run hp htol hfills hrun).sound
  exact ⟨c.frontier.staircase_points_iff.1 hsound.staircase,
    fun s hs => hsound.pareto _ (Frontier.mem_points hs)⟩

theorem run_sound_pickOne :
    ∃ c, (runPickOne .splitting).result = .ok c ∧
      ∀ s ∈ c.frontier.all, pickOne.IsPareto s.toPoint := by
  obtain ⟨c, hrun, -⟩ := exists_run_completed (m := { config := .plain .splitting })
    wholeObjectives_pickOne (Config.fine_plain .splitting) .bare .empty
    (Run.fills_splitting wholeObjectives_pickOne rfl .still none ampleFuel) feasible_pickOne
    ⟨rfl, Config.neverOver_plain .splitting⟩ (by decide)
  exact ⟨c, hrun, (run_sound wholeObjectives_pickOne (Config.fine_plain .splitting) .bare .still
    none ampleFuel .empty hrun).2⟩

end Method

end Biobjective
