import Biobjective.Proofs.AmpleFuel
import Biobjective.Proofs.RunHistory

/-!
# The node counter bounds a run

A run goes on for as long as its oracle finds something, and nothing about the numbers of a
program need bring it to an end: between large doubles a box may be split into itself. But each
optimum has nodes, and their counter is bounded. With fuel for twice as many solves as there are
nodes to count, a run on any oracle whose optima have nodes ends by itself:
`Run.session_ne_outOfFuel`. The optima of an enumerator have nodes over every scalar.
-/

namespace Biobjective

open Phase

namespace Scan

variable {K σ : Type} [Scalar K]

theorem met_meet (rows : List (Row K)) (visit : σ → ℕ → Point K → ForInStep σ) (s : Scan K σ) :
    (s.meet rows visit).met = s.met + 1 := by
  rw [meet]
  split
  · split <;> rfl
  · rfl

/-- A sweep meets an assignment. -/
theorem met_lt_sweep (rows : List (Row K)) (visit : σ → ℕ → Point K → ForInStep σ)
    (columns : List (Column K)) (s : Scan K σ) : s.met < (sweep rows visit columns s).met := by
  induction columns generalizing s with
  | nil =>
      rw [sweep_nil, met_meet]
      exact Nat.lt_succ_self _
  | cons c columns ih =>
      rw [sweep_cons]
      split
      · exact ih s
      · exact (ih s).trans (ih (s := { sweep rows visit columns s with
          position := (sweep rows visit columns s).position.flip c }))

end Scan

/-- The optima of the oracle have nodes. -/
def Oracle.CountsNodes {K σ : Type} (o : Oracle K σ) : Prop :=
  ∀ s best, (o.solve s).1 = .optimal best → 0 < best.nodes

theorem Enumerator.countsNodes {K : Type} [Scalar K] (p : Program K) :
    (Enumerator.oracle p).CountsNodes := by
  intro e best hbest
  change e.answer = .optimal best at hbest
  have hmet : 0 < (e.program.scan e.examine ⟨0, false, none⟩).2 :=
    Scan.met_lt_sweep e.program.rows e.examine e.program.columns ⟨e.program.origin, 0, _, false⟩
  simp only [answer] at hbest
  split at hbest
  · cases hbest
  · split at hbest
    · cases hbest
    · cases hbest
      exact hmet

section Budget

variable {K σ : Type} [Scalar K] {o : Oracle K σ} {cfg : Config K} {c : Clock}

namespace Work

/-- The nodes that can still be counted. -/
def left (work : Work) : ℕ := nodeBound - work.nodes

theorem left_lt_of_record? {work work' : Work} {nodes : ℕ} (h : work.record? nodes = some work')
    (hnodes : 0 < nodes) : work'.left < work.left := by
  obtain ⟨hlt, rfl⟩ := record?_eq_some_iff.1 h
  simp only [left]
  omega

theorem left_le_of_record? {work work' : Work} {nodes : ℕ} (h : work.record? nodes = some work') :
    work'.left ≤ work.left := by
  obtain ⟨hlt, rfl⟩ := record?_eq_some_iff.1 h
  simp only [left]
  omega

theorem left_le (work : Work) : work.left ≤ nodeBound := Nat.sub_le _ _

end Work

theorem Region.length_split_le (r : Region K) (z : Point K) : (r.split z).length ≤ 2 := by
  rw [split, List.length_append]
  exact Nat.add_le_add Option.length_toList_le Option.length_toList_le

namespace Splitting

/-- A round takes one box and leaves two only for nodes that are counted. -/
theorem ensures_drain_of_left_le (ho : o.CountsNodes) {fuel : ℕ} {queue : List (Region K)}
    {p : Progress K} {w : World K σ} (hfuel : 2 * p.work.left + queue.length ≤ fuel) :
    Ensures o c (drain cfg fuel queue) p w (fun _ _ _ => True) fun cut _ _ => cut.Limited := by
  induction fuel generalizing queue p w with
  | zero =>
      have hempty : queue = [] := List.length_eq_zero_iff.1 (by omega)
      subst hempty
      exact (ensures_pure ()).2 trivial
  | succ fuel ih =>
      cases hpop : cfg.queueOrder.pop? queue with
      | none =>
          rw [drain, hpop]
          exact (ensures_pure ()).2 trivial
      | some popped =>
          obtain ⟨r, rest⟩ := popped
          have hlength : rest.length + 1 = queue.length :=
            (QueueOrder.perm_of_pop? hpop).length_eq
          simp only [drain, hpop, ensures_bind, ensures_tell]
          rw [ensures_checkTime]
          split
          · exact Or.inl rfl
          · rw [ensures_solve_iff]
            generalize hsolve : World.solve o _ = solved
            obtain ⟨answer, w1⟩ := solved
            cases hrecord : p.work.record? answer.nodes with
            | none => exact Or.inr rfl
            | some work =>
                cases answer with
                | optimal best =>
                    have hless := Work.left_lt_of_record? hrecord
                      (ho _ best (congrArg Prod.fst hsolve))
                    have hsplit := r.length_split_le best.toPoint
                    simp only [ensures_bind, ensures_modifyFrontier]
                    apply ih
                    simp only [List.length_append]
                    omega
                | infeasible =>
                    have hle := Work.left_le_of_record? hrecord
                    apply ih
                    simp only
                    omega
                | timedOut nodes => exact (ensures_cut .timeout).2 (Or.inl rfl)

theorem ensures_search_of_nodeBound_lt (ho : o.CountsNodes) {fuel : ℕ}
    (hfuel : 2 * Work.nodeBound < fuel) (gaps : List (Solution K × Solution K)) {p : Progress K}
    {w : World K σ} :
    Ensures o c (search cfg fuel gaps) p w (fun _ _ _ => True) fun cut _ _ => cut.Limited := by
  induction gaps generalizing p w with
  | nil => exact (ensures_pure ()).2 trivial
  | cons ab gaps ih =>
      rw [search, ensures_bind, ensures_tell]
      refine (ensures_drain_of_left_le ho ?_).bind fun _ p1 w1 _ => ih
      have hle := p.work.left_le
      simp only [List.length_singleton]
      omega

end Splitting

namespace Ranking

theorem ensures_drain_of_left_lt (ho : o.CountsNodes) (weights : Weights K) (lo hi : K) {fuel : ℕ}
    {p : Progress K} {w : World K σ} (hfuel : p.work.left < fuel) :
    Ensures o c (drain cfg weights lo hi fuel) p w (fun _ _ _ => True)
      fun cut _ _ => cut = .overflow := by
  induction fuel generalizing p w with
  | zero => exact absurd hfuel (Nat.not_lt_zero _)
  | succ fuel ih =>
      rw [drain, ensures_bind, ensures_solve_iff]
      generalize hsolve : World.solve o _ = solved
      obtain ⟨answer, w1⟩ := solved
      cases hrecord : p.work.record? answer.nodes with
      | none => rfl
      | some work =>
          cases answer with
          | optimal best =>
              have hless := Work.left_lt_of_record? hrecord (ho _ best (congrArg Prod.fst hsolve))
              simp only [ensures_bind, ensures_frontier]
              split
              · exact (ensures_pure _).2 trivial
              · simp only [ensures_bind, ensures_modifyFrontier, ensures_tell, ensures_isOver]
                split
                · exact (ensures_pure _).2 trivial
                · apply ih
                  simp only
                  omega
          | infeasible => exact (ensures_pure _).2 trivial
          | timedOut nodes => exact (ensures_pure _).2 trivial

theorem ensures_search_of_nodeBound_lt (ho : o.CountsNodes) {fuel : ℕ}
    (hfuel : Work.nodeBound < fuel) (gaps : List (Solution K × Solution K)) (status : Status)
    {p : Progress K} {w : World K σ} :
    Ensures o c (search cfg fuel gaps status) p w (fun _ _ _ => True)
      fun cut _ _ => cut = .overflow := by
  induction gaps generalizing status p w with
  | nil => exact (ensures_pure status).2 trivial
  | cons ab gaps ih =>
      simp only [search, ensures_bind, ensures_tell]
      exact (ensures_drain_of_left_lt ho _ _ _ (p.work.left_le.trans_lt hfuel)).mono
        (fun here p1 w1 _ => ih (status.and here)) fun _ _ _ h => h

end Ranking

namespace Run

/-- The second phase is cut only by an assignment that is too long or by an overflow. -/
theorem ensures_secondPhase_of_nodeBound_lt (ho : o.CountsNodes) {fuel : ℕ}
    (hfuel : 2 * Work.nodeBound < fuel) (dimension : ℕ) {p : Progress K} {w : World K σ} :
    Ensures o c (secondPhase cfg dimension fuel) p w (fun _ _ _ => True)
      fun cut _ _ => cut = .tooManyVariables ∨ cut = .overflow := by
  cases hstrategy : cfg.strategy with
  | splitting =>
      rw [secondPhase_splitting hstrategy]
      exact (Splitting.ensures_phase_of_search
        (Splitting.ensures_search_of_nodeBound_lt ho hfuel _)).mono (fun _ _ _ h => h)
        fun _ _ _ h => Or.inr h
  | ranking =>
      rw [secondPhase_ranking hstrategy, Ranking.phase]
      split
      · exact (ensures_cut _).2 (Or.inl rfl)
      · simp only [ensures_bind, ensures_frontier, ensures_tell, ensures_pure]
        exact (Ranking.ensures_search_of_nodeBound_lt ho (by omega) _ _).mono (fun _ _ _ h => h)
          fun _ _ _ h => Or.inr h

/-- The first phase has no fuel, and takes the end of its time for its own. -/
theorem failure_of_firstPhase {cfg : Config K} {o : Oracle K σ} {clock : Clock} {s : σ} {cut : Cut}
    {p : Progress K} {w : World K σ} (h : firstPhase cfg o clock s = ((.error cut, p), w)) :
    cut.failure ≠ .outOfFuel := by
  let r : Rules K := { cut := fun cut => cut ≠ .outOfFuel }
  have hr : r.AllowsFirst cfg :=
    { timeout := by simp [r], overflow := by simp [r], infeasible := by simp [r] }
  have hfuel := (Supported.abides_phase (r := r) o.vouches_trivial hr clock
    { frontier := .empty cfg.tolerances.dominance } (.start s) trivial trivial).cut
  rw [← firstPhase, h] at hfuel
  have htime : cut ≠ .timeout := by
    rintro rfl
    rw [firstPhase, Supported.hold_phase] at h
    generalize hold o clock (Supported.search cfg) { frontier := .empty cfg.tolerances.dominance }
      (.start s) = e at h
    rcases e with ⟨⟨cut | _, p1⟩, w1⟩
    · cases cut <;> cases h
    · cases h
  cases cut with
  | timeout => exact absurd rfl htime
  | outOfFuel => exact absurd rfl (hfuel _ rfl)
  | infeasible stage => simp [Cut.failure]
  | overflow => simp [Cut.failure]
  | tooManyVariables => simp [Cut.failure]

/-- A run with fuel for all nodes that can be counted does not use it up. -/
theorem session_ne_outOfFuel (ho : o.CountsNodes) (cfg : Config K) (clock : Clock) {fuel : ℕ}
    (hfuel : 2 * Work.nodeBound < fuel) (s : σ) :
    ((session cfg o.dimension fuel).exec o clock (.start s)).1 ≠ .error .outOfFuel := by
  intro h
  by_cases hzero : o.dimension = 0
  · rw [session, if_pos hzero] at h
    cases h
  · rw [exec_session cfg o hzero] at h
    rcases hfirst : firstPhase cfg o clock s with ⟨⟨cut | first, p⟩, w⟩
    · rw [hfirst] at h
      exact failure_of_firstPhase hfirst (Except.error.inj h)
    · rw [hfirst, exec_rest] at h
      rcases hends : hold o clock (secondPhase cfg o.dimension fuel) p (w.time clock).2 with
        ⟨⟨cut | second, p'⟩, w'⟩
      · rw [hends] at h
        rcases (ensures_secondPhase_of_nodeBound_lt ho hfuel o.dimension).error_of_hold hends with
          rfl | rfl
        · cases h
        · cases h
      · rw [hends] at h
        cases h

end Run

end Budget

end Biobjective
