import Biobjective.Proofs.Attestation
import Biobjective.Proofs.FatalError
import Biobjective.Proofs.RegionTree

/-!
# Ample fuel

On an enumerator the second phase ends by itself, whatever the tolerances are and whatever the
first phase has handed on. By splitting, each solve takes the outcome that it finds out of the
waiting boxes, so fuel for the effort of a box does not run out. By ranking, each solve leaves
fewer masks that no exclusion hits. So with more fuel than twice the number of masks a run on a
feasible program concludes, unless the nodes overflow their counter: `Run.session_concludes`.
-/

namespace Biobjective

open Phase

namespace Enumerator

/-- The number of masks that no exclusion hits. -/
def remaining (e : Enumerator ℚ) : ℕ :=
  ((Finset.range (2 ^ e.program.dimension)).filter fun m =>
    e.excluded.any (·.hits m) = false).card

theorem remaining_le (e : Enumerator ℚ) : e.remaining ≤ 2 ^ e.program.dimension :=
  (Finset.card_filter_le _ _).trans_eq (Finset.card_range _)

/-- An admitted mask is hit once it is excluded. -/
theorem remaining_exclude_lt {e : Enumerator ℚ} {mask : ℕ} (h : e.Admits mask) :
    (e.follow (.exclude (noGood ((e.program.decisions mask).map binary)))).remaining <
      e.remaining := by
  obtain ⟨⟨hmask, -⟩, hobeys⟩ := h
  simp only [obeys, Bool.and_eq_true, Bool.not_eq_true'] at hobeys
  apply Finset.card_lt_card
  refine (Finset.ssubset_iff_of_subset fun m hm => ?_).2 ⟨mask, ?_, fun hm => ?_⟩
  · obtain ⟨hlt, hfree⟩ := Finset.mem_filter.1 hm
    exact Finset.mem_filter.2 ⟨hlt, (Bool.or_eq_false_iff.1 hfree).2⟩
  · exact Finset.mem_filter.2 ⟨Finset.mem_range.2 hmask, hobeys.2⟩
  · have hfree : (e.program.patternOf mask).hits mask = false :=
      (Bool.or_eq_false_iff.1 (Finset.mem_filter.1 hm).2).1
    rw [(e.program.hits_patternOf_iff hmask hmask).2 rfl] at hfree
    cases hfree

end Enumerator

variable {p : Program ℚ} {cfg : Config ℚ} {c : Clock}

namespace Splitting

/-- What is admitted under the ranges of a box of whole bounds is an outcome in the box. -/
theorem holds_of_admits (hp : p.WholeObjectives) {r : Region ℚ} (hr : r.Whole) {e : Enumerator ℚ}
    {mask : ℕ} (h : e.Admits mask) (he : e.program = p) (hfirst : e.first = r.range .first)
    (hsecond : e.second = r.range .second) :
    (e.optimumAt mask).toPoint ∈ p.outcomes ∧ r.Holds (e.optimumAt mask).toPoint := by
  obtain ⟨hfeasible, hobeys⟩ := h
  simp only [Enumerator.obeys, Bool.and_eq_true, hfirst, hsecond] at hobeys
  have hmem : (e.optimumAt mask).toPoint ∈ p.outcomes := by
    rw [← he]
    exact hfeasible.maskOutcome_mem
  exact ⟨hmem, (hr.allows_iff (hp.whole hmem)).1 hobeys.1⟩

/-- Boxes that take no more than the fuel are worked off, up to a limit. -/
theorem ensures_drain_of_effort_le (hp : p.WholeObjectives) {fuel : ℕ} {queue : List (Region ℚ)}
    (hqueue : ∀ r ∈ queue, r.Whole) (hfuel : p.effort queue ≤ fuel) {q : Progress ℚ}
    {w : World ℚ (Enumerator ℚ)} (hw : w.oracle.program = p) :
    Ensures (Enumerator.oracle p) c (drain cfg fuel queue) q w
      (fun _ _ w' => w'.oracle.program = p) fun cut _ _ => cut.Limited := by
  induction fuel generalizing queue q w with
  | zero =>
      cases queue with
      | nil => exact (ensures_pure ()).2 hw
      | cons r queue =>
          rw [Program.effort_cons] at hfuel
          omega
  | succ fuel ih =>
      cases hpop : cfg.queueOrder.pop? queue with
      | none =>
          rw [drain, hpop, ensures_pure]
          exact hw
      | some popped =>
          obtain ⟨r, rest⟩ := popped
          have hperm := QueueOrder.perm_of_pop? hpop
          have hr : r.Whole := hqueue r (hperm.mem_iff.1 List.mem_cons_self)
          have hrest : ∀ r' ∈ rest, r'.Whole := fun r' hr' =>
            hqueue r' (hperm.mem_iff.1 (List.mem_cons_of_mem _ hr'))
          rw [← p.effort_perm hperm, Program.effort_cons] at hfuel
          simp only [drain, hpop, ensures_bind, ensures_tell]
          rw [ensures_checkTime]
          split
          · exact Or.inl rfl
          · apply ensures_solve_of ⟨_, rfl⟩ fun _ => Or.inr rfl
            rintro answer work w1 hanswer ⟨solves, hw1⟩
            have hprogram : w1.oracle.program = p := by
              rw [hw1]
              exact hw
            cases hanswer with
            | optimal mask hadmits _ =>
                obtain ⟨hmem, hholds⟩ := holds_of_admits hp hr hadmits hw rfl rfl
                -- The outcome found lies in neither part of its box, so both together take less.
                have hsplit := Program.effort_split_lt hmem hholds
                simp only [ensures_bind, ensures_modifyFrontier]
                refine ih ?_ ?_ hprogram
                · intro r' hr'
                  rcases List.mem_append.1 hr' with hr' | hr'
                  · exact hrest r' hr'
                  · exact hr.split (hp.whole hmem) hr'
                · rw [Program.effort_append]
                  omega
            | infeasible _ => exact ih hrest (by omega) hprogram
            | timedOut nodes _ _ => exact (ensures_cut .timeout).2 (Or.inl rfl)

/-- A box takes at most two solves for each mask and one more. -/
theorem ensures_search_of_two_pow_lt (hp : p.WholeObjectives) {fuel : ℕ}
    (hfuel : 2 * 2 ^ p.dimension < fuel) {gaps : List (Solution ℚ × Solution ℚ)}
    (hgaps : ∀ ab ∈ gaps, ab.1.toPoint.Whole ∧ ab.2.toPoint.Whole) {q : Progress ℚ}
    {w : World ℚ (Enumerator ℚ)} (hw : w.oracle.program = p) :
    Ensures (Enumerator.oracle p) c (search cfg fuel gaps) q w
      (fun _ _ _ => True) fun cut _ _ => cut.Limited := by
  induction gaps generalizing q w with
  | nil => exact (ensures_pure ()).2 trivial
  | cons ab gaps ih =>
      obtain ⟨⟨ha, hb⟩, hgaps⟩ := List.forall_mem_cons.1 hgaps
      have heffort : p.effort [.ofCorners ab.1 ab.2] ≤ fuel := by
        have hload : p.load (.ofCorners ab.1 ab.2) ≤ 2 ^ p.dimension := p.tally_le _
        rw [Program.effort_cons, Program.effort, List.map_nil, List.sum_nil]
        omega
      have htold : (w.tell (Enumerator.oracle p)
          (.weights (ab.1.chord ab.2))).oracle.program = p := hw
      rw [search, ensures_bind, ensures_tell]
      refine (ensures_drain_of_effort_le hp ?_ heffort htold).bind fun _ q1 w1 hw1 => ih hgaps hw1
      intro r hr
      rw [List.mem_singleton.1 hr]
      exact Region.Whole.ofCorners ha hb

/-- A search that only limits cut lets the phase end, unless the nodes overflow. -/
theorem ensures_phase_of_search {K σ : Type} [Scalar K] {cfg : Config K} {o : Oracle K σ} {c : Clock}
    {fuel : ℕ} {q : Progress K} {w : World K σ}
    (h : Ensures o c (search cfg fuel (neighbours q.frontier.supported)) q w (fun _ _ _ => True)
      fun cut _ _ => cut.Limited) :
    Ensures o c (phase cfg fuel) q w (fun _ _ _ => True) fun cut _ _ => cut = .overflow := by
  refine (ensures_handle _ _).2 ((ensures_look fun q => search cfg fuel
    (neighbours q.frontier.supported)).2 (h.mono ?_ ?_))
  · intro _ q' w' _
    unfold Ensures
    trivial
  · rintro cut q' w' (rfl | rfl)
    · unfold Ensures
      trivial
    · unfold Ensures
      rfl

theorem ensures_phase_of_two_pow_lt (hp : p.WholeObjectives) {fuel : ℕ}
    (hfuel : 2 * 2 ^ p.dimension < fuel) {q : Progress ℚ}
    (hq : ∀ s ∈ q.frontier.supported, s.toPoint ∈ p.outcomes) {w : World ℚ (Enumerator ℚ)}
    (hw : w.oracle.program = p) :
    Ensures (Enumerator.oracle p) c (phase cfg fuel) q w (fun _ _ _ => True)
      fun cut _ _ => cut = .overflow := by
  have hgaps : ∀ ab ∈ neighbours q.frontier.supported,
      ab.1.toPoint.Whole ∧ ab.2.toPoint.Whole := by
    intro ab hab
    obtain ⟨ha, hb⟩ := mem_of_mem_neighbours hab
    exact ⟨hp.whole (hq _ ha), hp.whole (hq _ hb)⟩
  exact ensures_phase_of_search (ensures_search_of_two_pow_lt hp hfuel hgaps hw)

end Splitting

namespace Ranking

/-- More fuel than there are masks left to find does not run out. -/
theorem ensures_drain_of_remaining_lt (weights : Weights ℚ) (lo hi : ℚ) {fuel : ℕ}
    {q : Progress ℚ} {w : World ℚ (Enumerator ℚ)} (hw : w.oracle.program = p)
    (hfuel : w.oracle.remaining < fuel) :
    Ensures (Enumerator.oracle p) c (drain cfg weights lo hi fuel) q w
      (fun _ _ w' => w'.oracle.program = p) fun cut _ _ => cut = .overflow := by
  induction fuel generalizing q w with
  | zero => exact absurd hfuel (Nat.not_lt_zero _)
  | succ fuel ih =>
      simp only [drain, ensures_bind]
      apply ensures_solve_of ⟨_, rfl⟩ fun _ => rfl
      rintro answer work w1 hanswer ⟨solves, hw1⟩
      have hprogram : w1.oracle.program = p := by
        rw [hw1]
        exact hw
      cases hanswer with
      | optimal mask hadmits _ =>
          have hfewer : (w1.oracle.follow (.exclude (noGood
              ((w.oracle.program.decisions mask).map binary)))).remaining < w.oracle.remaining := by
            -- The count of solves, in which the two enumerators differ, hits no mask.
            rw [hw1]
            exact Enumerator.remaining_exclude_lt hadmits
          simp only [ensures_bind, ensures_frontier]
          split
          · exact (ensures_pure _).2 hprogram
          · simp only [ensures_bind, ensures_modifyFrontier, ensures_tell, ensures_isOver]
            split
            · exact (ensures_pure _).2 hprogram
            · exact ih hprogram (hfewer.trans_le (Nat.lt_succ_iff.1 hfuel))
      | infeasible _ => exact (ensures_pure _).2 hprogram
      | timedOut nodes _ _ => exact (ensures_pure _).2 hprogram

theorem ensures_search_of_two_pow_lt {fuel : ℕ} (hfuel : 2 ^ p.dimension < fuel)
    (gaps : List (Solution ℚ × Solution ℚ)) (status : Status) {q : Progress ℚ}
    {w : World ℚ (Enumerator ℚ)} (hw : w.oracle.program = p) :
    Ensures (Enumerator.oracle p) c (search cfg fuel gaps status) q w
      (fun _ _ _ => True) fun cut _ _ => cut = .overflow := by
  induction gaps generalizing status q w with
  | nil => exact (ensures_pure status).2 trivial
  | cons ab gaps ih =>
      simp only [search, ensures_bind, ensures_tell]
      generalize htold : World.tell (Enumerator.oracle p) (.weights (ab.1.chord ab.2)) _ = w1
      have hw1 : w1.oracle.program = p := by
        rw [← htold]
        exact hw
      have hremaining : w1.oracle.remaining < fuel := by
        refine w1.oracle.remaining_le.trans_lt ?_
        rwa [hw1]
      exact (ensures_drain_of_remaining_lt _ _ _ hw1 hremaining).mono
        (fun here q2 w2 hw2 => ih (status.and here) hw2) fun _ _ _ h => h

theorem ensures_phase_of_two_pow_lt {fuel : ℕ} (hfuel : 2 ^ p.dimension < fuel) {q : Progress ℚ}
    {w : World ℚ (Enumerator ℚ)} (hw : w.oracle.program = p) :
    Ensures (Enumerator.oracle p) c (phase cfg p.dimension fuel) q w (fun _ _ _ => True)
      fun cut _ _ => cut = .overflow := by
  simp only [phase, if_neg p.not_maxLength_lt, ensures_bind, ensures_frontier, ensures_tell,
    ensures_pure]
  exact ensures_search_of_two_pow_lt hfuel _ _ hw

end Ranking

namespace Run

theorem ensures_secondPhase_of_two_pow_lt (hp : p.WholeObjectives) {fuel : ℕ}
    (hfuel : 2 ^ (p.dimension + 1) < fuel) {q : Progress ℚ}
    (hq : ∀ s ∈ q.frontier.supported, s.toPoint ∈ p.outcomes) {w : World ℚ (Enumerator ℚ)}
    (hw : w.oracle.program = p) :
    Ensures (Enumerator.oracle p) c (secondPhase cfg p.dimension fuel) q w (fun _ _ _ => True)
      fun cut _ _ => cut = .overflow := by
  rw [Nat.pow_succ] at hfuel
  cases hstrategy : cfg.strategy with
  | splitting =>
      rw [secondPhase_splitting hstrategy]
      exact Splitting.ensures_phase_of_two_pow_lt hp (by omega) hq hw
  | ranking =>
      rw [secondPhase_ranking hstrategy]
      exact Ranking.ensures_phase_of_two_pow_lt (by omega) hw

/-- The first phase hands on outcomes, and an enumerator of the program. -/
theorem outcomes_of_firstPhase {e : Enumerator ℚ} (he : e.program = p) {first : Status}
    {q : Progress ℚ} {w : World ℚ (Enumerator ℚ)}
    (hfirst : firstPhase cfg (Enumerator.oracle p) c e = ((.ok first, q), w)) :
    (∀ s ∈ q.frontier.supported, s.toPoint ∈ p.outcomes) ∧ w.oracle.program = p := by
  let r : Rules ℚ :=
    { found := fun best => best.toPoint ∈ p.outcomes
      frontier := Frontier.Members fun s => s.toPoint ∈ p.outcomes }
  have hr : r.AllowsFirst cfg :=
    { insert := fun _ _ hbest hf => hf.insertSupported hbest
      retain := fun _ hf => hf.retainSupported }
  have habides := Supported.abides_phase (r := r) (Enumerator.oracle_vouches p) hr c
    { frontier := .empty cfg.tolerances.dominance } (.start e) he (Frontier.members_empty _ _)
  rw [← firstPhase, hfirst] at habides
  exact ⟨habides.frontier.supported, habides.state⟩

/-- On a feasible program of whole objectives a run with ample fuel concludes, unless the nodes
overflow their counter. -/
theorem session_concludes (hp : p.WholeObjectives) (hfeasible : ∃ x, p.Feasible x)
    (htie : 0 ≤ cfg.tolerances.tie) (limit? : Option ℕ) {fuel : ℕ}
    (hfuel : 2 ^ (p.dimension + 1) < fuel) :
    let result := ((session cfg (Enumerator.oracle p).dimension fuel).exec (Enumerator.oracle p) c
      (.start (.ofProgram p limit?))).1
    (∃ conclusion, result = .ok conclusion) ∨ result = .error (.crash .addOverflow) := by
  have hnonempty := Set.nonempty_iff_ne_empty.2 (Program.outcomes_ne_empty hfeasible)
  rw [exec_session cfg _ p.dimension_ne_zero]
  rcases hfirst : firstPhase cfg (Enumerator.oracle p) c (.ofProgram p limit?) with
    ⟨⟨cut | first, q⟩, w⟩
  · rw [Supported.eq_overflow_of_phase hnonempty htie ⟨_, inForce_start p limit?⟩ hfirst]
    exact Or.inr rfl
  · have hprogram : (Enumerator.ofProgram p limit?).program = p := rfl
    obtain ⟨hq, hw⟩ := outcomes_of_firstPhase hprogram hfirst
    have hsecond : Ensures (Enumerator.oracle p) c (secondPhase cfg p.dimension fuel) q
        (w.time c).2 (fun _ _ _ => True) fun cut _ _ => cut = .overflow :=
      ensures_secondPhase_of_two_pow_lt hp hfuel hq hw
    rw [exec_rest]
    rcases hends : hold (Enumerator.oracle p) c (secondPhase cfg _ fuel) q
      (w.time c).2 with ⟨⟨cut | second, q'⟩, w'⟩
    · rw [hsecond.error_of_hold hends]
      exact Or.inr rfl
    · exact Or.inl ⟨_, rfl⟩

end Run

end Biobjective
