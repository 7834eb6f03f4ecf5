import Biobjective.Proofs.Completeness
import Biobjective.Proofs.Deadline

/-!
# Running out of time while splitting

A run by splitting whose time is over from its `k`th solve on makes the first `k`
solves of the run that has all the time it needs, and it ends incomplete, unless
the other one makes no further solve. In that case both runs are the same. The main
result is `Method.run_splitting_truncated`.
-/

namespace Biobjective

namespace Splitting

section Conclusion

variable {K σ : Type}

/-- How the search of the second phase amounts to the phase. -/
def conclude (o : Oracle K σ) : Phase.Ending K σ Unit → Phase.Ending K σ Status
  | ((.error .overflow, p), w) => ((.error .overflow, p), w)
  | ((.error .outOfFuel, p), w) => ((.error .outOfFuel, p), w)
  | ((.error _, p), w) => ((.ok .partly, p), (w.tell o (.clear .first)).tell o (.clear .second))
  | ((.ok (), p), w) => ((.ok .completed, p), (w.tell o (.clear .first)).tell o (.clear .second))

theorem conclude_world (o : Oracle K σ) (e : Phase.Ending K σ Unit) :
    (conclude o e).2 = e.2 ∨
      (conclude o e).2 = (e.2.tell o (.clear .first)).tell o (.clear .second) := by
  rcases e with ⟨⟨cut | _, p⟩, w⟩
  · cases cut <;> simp [conclude]
  · exact Or.inr rfl

@[simp] theorem conclude_solves (o : Oracle K σ) (e : Phase.Ending K σ Unit) :
    (conclude o e).2.moment.solves = e.2.moment.solves := by
  rcases conclude_world o e with h | h
  · rw [h]
  · rw [h, World.tell_solves, World.tell_solves]

/-- The second run has ended the second phase for want of time after `k` solves, and
the other one has made more. -/
structure Outrun (k : ℕ) (u l : Phase.Ending K σ Status) : Prop where
  partly : l.1.1 = .ok .partly
  behind : World.Behind k u.2 l.2
  ahead : k < u.2.moment.solves

theorem Outrun.of_trails {k : ℕ} (o : Oracle K σ) {u l : Phase.Ending K σ Unit}
    (h : Phase.Trails k (fun _ => False) u l) : Outrun k (conclude o u) (conclude o l) := by
  obtain ⟨hcut, hbehind, hahead⟩ := h
  refine ⟨?_, ?_, ?_⟩
  · rcases l with ⟨⟨cut | _, p⟩, w⟩
    · cases hcut
      rfl
    · cases hcut
  · have hleft : World.Behind k (conclude o u).2 l.2 := by
      rcases conclude_world o u with h | h
      · rw [h]
        exact hbehind
      · rw [h]
        exact (hbehind.tell_left o _).tell_left o _
    rcases conclude_world o l with h | h
    · rw [h]
      exact hleft
    · rw [h]
      exact (hleft.tell_right o _).tell_right o _
  · rw [conclude_solves]
    exact hahead.resolve_right id

end Conclusion

variable {K σ : Type} [Scalar K]

open Phase in
theorem drain_lockstep {cfg : Config K} {free clock : Clock} {k : ℕ}
    (h : Expires cfg.timeLimit free clock k) (o : Oracle K σ) (fuel : ℕ)
    (queue : List (Region K)) (p : Progress K) (w : World K σ) (hpos : 0 < w.moment.solves)
    (hle : w.moment.solves ≤ k) :
    Lockstep (Within k) (Trails k fun _ => False) (hold o free (drain cfg fuel queue) p w)
      (hold o clock (drain cfg fuel queue) p w) := by
  induction fuel generalizing queue p w with
  | zero =>
      rw [drain]
      split
      · exact Or.inl ⟨rfl, hpos, hle⟩
      · exact Or.inl ⟨rfl, hpos, hle⟩
  | succ fuel ih =>
      rw [drain]
      cases cfg.queueOrder.pop? queue with
      | none => exact Or.inl ⟨rfl, hpos, hle⟩
      | some popped =>
          obtain ⟨region, rest⟩ := popped
          refine lockstep_checkTime h hpos hle (fun hlt => ?_) (fun heq => Or.inl ?_)
          · -- Time was left at the check, so the solve is one of the first `k` in both runs.
            rw [hold_tell_bind, hold_tell_bind, hold_tell_bind, hold_tell_bind, hold_solve_bind,
              hold_solve_bind]
            split
            · split
              · rw [hold_modifyFrontier_bind, hold_modifyFrontier_bind]
                exact ih _ _ _ (Nat.succ_pos _) hlt
              · exact ih _ _ _ (Nat.succ_pos _) hlt
              · exact Or.inl ⟨rfl, Nat.succ_pos _, hlt⟩
            · exact Or.inl ⟨rfl, Nat.succ_pos _, hlt⟩
          · rw [hold_tell_bind, hold_tell_bind]
            exact solves_lt_hold_solve_bind o free _ _ _ heq

open Phase in
theorem search_lockstep {cfg : Config K} {free clock : Clock} {k : ℕ}
    (h : Expires cfg.timeLimit free clock k) (o : Oracle K σ) (fuel : ℕ)
    (pairs : List (Solution K × Solution K)) (p : Progress K) (w : World K σ)
    (hpos : 0 < w.moment.solves) (hle : w.moment.solves ≤ k) :
    Lockstep (Within k) (Trails k fun _ => False) (hold o free (search cfg fuel pairs) p w)
      (hold o clock (search cfg fuel pairs) p w) := by
  induction pairs generalizing p w with
  | nil => exact Or.inl ⟨rfl, hpos, hle⟩
  | cons pair pairs ih =>
      obtain ⟨left, right⟩ := pair
      rw [search, hold_tell_bind, hold_tell_bind]
      refine (drain_lockstep h o fuel [.ofCorners left right] p
        (w.tell o (.weights (left.chord right))) hpos hle).bind
        (fun _ _ _ hin => hin) ?_ fun _ _ hlate => hlate.resume
      rintro _ p1 w1 - hin
      exact ih p1 w1 hin.1 hin.2

open Phase in
theorem hold_phase (o : Oracle K σ) (c : Clock) (cfg : Config K) (fuel : ℕ) (p : Progress K)
    (w : World K σ) :
    hold o c (phase cfg fuel) p w =
      conclude o (hold o c (search cfg fuel (neighbours p.frontier.supported)) p w) := by
  rw [hold, hold, phase, Session.exec_bind]
  rcases (search cfg fuel (neighbours p.frontier.supported) p).exec o c w with ⟨⟨cut | _, p'⟩, w'⟩
  · cases cut <;> rfl
  · rfl

open Phase in
theorem phase_lockstep {cfg : Config K} {free clock : Clock} {k : ℕ}
    (h : Expires cfg.timeLimit free clock k) (o : Oracle K σ) (fuel : ℕ) (p : Progress K)
    (w : World K σ) (hpos : 0 < w.moment.solves) (hle : w.moment.solves ≤ k) :
    Lockstep (Within k) (Outrun k) (hold o free (phase cfg fuel) p w)
      (hold o clock (phase cfg fuel) p w) := by
  rw [hold_phase, hold_phase]
  rcases search_lockstep h o fuel (neighbours p.frontier.supported) p w hpos hle with
    ⟨heq, hin⟩ | hlate
  · rw [heq]
    refine Or.inl ⟨rfl, ?_⟩
    rw [Within, conclude_solves]
    exact hin
  · exact Or.inr (.of_trails o hlate)

theorem pop?_singleton {α : Type} (order : QueueOrder) (a : α) :
    order.pop? [a] = some (a, []) := by
  cases order <;> rfl

open Phase in
/-- Once time is over, the second phase makes no solve. -/
theorem phase_of_over {cfg : Config K} {clock : Clock} {fuel : ℕ} (hfuel : 0 < fuel)
    (o : Oracle K σ) (p : Progress K) {w : World K σ}
    (hover : ∀ t : Moment, t.solves = w.moment.solves → cfg.timeLimit ≤ clock t) :
    (∃ status, (hold o clock (phase cfg fuel) p w).1.1 = .ok status) ∧
      (hold o clock (phase cfg fuel) p w).2.moment.solves = w.moment.solves := by
  obtain ⟨fuel, rfl⟩ := Nat.exists_eq_succ_of_ne_zero hfuel.ne'
  rw [hold_phase, conclude_solves]
  cases neighbours p.frontier.supported with
  | nil => exact ⟨⟨.completed, rfl⟩, rfl⟩
  | cons pair pairs =>
      obtain ⟨left, right⟩ := pair
      have hcut : hold o clock (drain cfg (fuel + 1) [.ofCorners left right]) p
          (w.tell o (.weights (left.chord right))) =
            ((.error .timeout, p), ((w.tell o (.weights (left.chord right))).time clock).2) := by
        simp only [drain, pop?_singleton]
        rw [hold_checkTime_bind]
        exact if_pos (hover _ rfl)
      rw [search, hold_tell_bind, hold_bind, hcut]
      exact ⟨⟨.partly, rfl⟩, rfl⟩

open Phase in
/-- As long as time is not over, a gap leads to a solve. -/
theorem solves_lt_phase {cfg : Config K} {free : Clock} (hfree : ∀ t, ¬cfg.timeLimit ≤ free t)
    {fuel : ℕ} (hfuel : 0 < fuel) (o : Oracle K σ) {p : Progress K}
    (hp : 2 ≤ p.frontier.supported.length) (w : World K σ) :
    w.moment.solves < (hold o free (phase cfg fuel) p w).2.moment.solves := by
  obtain ⟨fuel, rfl⟩ := Nat.exists_eq_succ_of_ne_zero hfuel.ne'
  have hpairs := length_neighbours p.frontier.supported
  rw [hold_phase, conclude_solves]
  cases hcons : neighbours p.frontier.supported with
  | nil =>
      rw [hcons, List.length_nil] at hpairs
      omega
  | cons pair pairs =>
      obtain ⟨left, right⟩ := pair
      rw [search, hold_tell_bind, hold_bind]
      refine Nat.lt_of_lt_of_le ?_ (solves_le_resume o free _ _)
      simp only [drain, pop?_singleton]
      rw [hold_checkTime_bind, if_neg (hfree _), hold_tell_bind, hold_tell_bind]
      exact solves_lt_hold_solve_bind o free _ _ _ rfl

end Splitting

/-- What a run makes of its time: the status and the frontier, or the failure. -/
def Run.outcome {K : Type} (result : Except Failure (Conclusion K)) :
    Except Failure (Status × Frontier K) :=
  result.map fun c => (c.status, c.frontier)

namespace Run

variable {K σ : Type} [Scalar K]

/-- A run that is cut by time is behind the other one, and is incomplete. -/
structure Overtaken (k : ℕ) (u l : Except Failure (Conclusion K) × World K σ) : Prop where
  behind : World.Behind k u.2 l.2
  ahead : k < u.2.moment.solves
  partly : ∃ c, l.1 = .ok c ∧ c.status = .partly

theorem secondPhase_splitting {cfg : Config K} (hstrategy : cfg.strategy = .splitting)
    (dimension fuel : ℕ) : secondPhase cfg dimension fuel = Splitting.phase cfg fuel := by
  rw [secondPhase, hstrategy]

/-- Two runs that were the same up to the end of the first phase. -/
theorem rest_lockstep {cfg : Config K} (hstrategy : cfg.strategy = .splitting)
    {free clock : Clock} {k : ℕ} (h : Expires cfg.timeLimit free clock k) (o : Oracle K σ)
    (dimension fuel : ℕ) (e : Except Cut Status × Progress K) {w : World K σ}
    (hpos : 0 < w.moment.solves) (hle : w.moment.solves ≤ k) :
    let u := (rest cfg dimension fuel e).exec o free w
    let l := (rest cfg dimension fuel e).exec o clock w
    (u.2.moment.solves ≤ k ∧ l.2.record = u.2.record ∧ outcome l.1 = outcome u.1) ∨
      Overtaken k u l := by
  rcases e with ⟨cut | first, p⟩
  · exact Or.inl ⟨hle, rfl, rfl⟩
  · have hphase := Splitting.phase_lockstep h o fuel p (w.time free).2 hpos hle
    have htime : (w.time clock).2 = (w.time free).2 := rfl
    simp only [exec_rest, secondPhase_splitting hstrategy, htime]
    generalize Phase.hold o free (Splitting.phase cfg fuel) p (w.time free).2 = u at hphase
    generalize Phase.hold o clock (Splitting.phase cfg fuel) p (w.time free).2 = l at hphase
    rcases hphase with ⟨rfl, hin⟩ | ⟨hpartly, hbehind, hahead⟩
    · rcases u with ⟨⟨cut | second, p'⟩, w'⟩
      · exact Or.inl ⟨hin.2, rfl, rfl⟩
      · exact Or.inl ⟨hin.2, rfl, rfl⟩
    · refine Or.inr ?_
      rcases l with ⟨⟨cut | second, pl⟩, wl⟩
      · cases hpartly
      · cases hpartly
        have hstatus : first.and .partly = .partly := by cases first <;> rfl
        rcases u with ⟨⟨cut | second, pu⟩, wu⟩
        · exact ⟨hbehind.time_right clock, hahead, _, rfl, hstatus⟩
        · exact ⟨(hbehind.time_left free).time_right clock, hahead, _, rfl, hstatus⟩

/-- The run whose first phase was cut by time makes no further solve, and the other
one does. -/
theorem rest_of_outrun {cfg : Config K} (hstrategy : cfg.strategy = .splitting)
    {free clock : Clock} {k : ℕ} (hk : 0 < k) (h : Expires cfg.timeLimit free clock k)
    (o : Oracle K σ) (dimension : ℕ) {fuel : ℕ} (hfuel : 0 < fuel)
    {u l : Phase.Ending K σ Status} (hfirst : Supported.Outrun k u l) :
    Overtaken k ((rest cfg dimension fuel u.1).exec o free u.2)
      ((rest cfg dimension fuel l.1).exec o clock l.2) := by
  obtain ⟨hpartly, hbehind, hahead⟩ := hfirst
  rcases l with ⟨⟨cut | status, pl⟩, wl⟩
  · cases hpartly
  · cases hpartly
    have hover : ∀ t : Moment, t.solves = (wl.time clock).2.moment.solves →
        cfg.timeLimit ≤ clock t := by
      intro t ht
      have hsolves : t.solves = k := ht.trans hbehind.solves_eq
      exact (h.over_iff t (hsolves ▸ hk)).2 hsolves.ge
    obtain ⟨hstatus, hsolves⟩ : (∃ c, ((rest cfg dimension fuel (.ok .partly, pl)).exec o clock
        wl).1 = .ok c ∧ c.status = .partly) ∧ ((rest cfg dimension fuel (.ok .partly, pl)).exec o
        clock wl).2.moment.solves = wl.moment.solves := by
      have hphase := Splitting.phase_of_over hfuel o pl hover
      rw [exec_rest, secondPhase_splitting hstrategy]
      generalize Phase.hold o clock (Splitting.phase cfg fuel) pl (wl.time clock).2 = e at hphase
      rcases e with ⟨⟨cut | second, p'⟩, w'⟩
      · obtain ⟨⟨status, hok⟩, -⟩ := hphase
        cases hok
      · exact ⟨⟨_, rfl, rfl⟩, hphase.2⟩
    refine ⟨(hbehind.exec_left o free _).exec_right o clock _ hsolves, ?_, hstatus⟩
    -- If the other first phase has not got ahead, it has left a gap for the second one.
    rcases hahead with hlt | ⟨hok, hlength⟩
    · exact lt_of_lt_of_le hlt (Session.solves_le_exec o free _ u.2)
    · rcases u with ⟨⟨cut | status, pu⟩, wu⟩
      · cases hok
      · have hlt := Splitting.solves_lt_phase h.never hfuel o hlength (wu.time free).2
        rw [exec_rest, secondPhase_splitting hstrategy]
        generalize Phase.hold o free (Splitting.phase cfg fuel) pu (wu.time free).2 = e at hlt
        rcases e with ⟨⟨cut | second, p'⟩, w'⟩
        · exact lt_of_le_of_lt hbehind.le_solves hlt
        · exact lt_of_le_of_lt hbehind.le_solves hlt

theorem session_lockstep {cfg : Config K} (hstrategy : cfg.strategy = .splitting)
    {free clock : Clock} {k : ℕ} (hk : 0 < k) (h : Expires cfg.timeLimit free clock k)
    (o : Oracle K σ) {fuel : ℕ} (hfuel : 0 < fuel) (s : σ) :
    let u := (session cfg o.dimension fuel).exec o free (.start s)
    let l := (session cfg o.dimension fuel).exec o clock (.start s)
    (u.2.moment.solves ≤ k ∧ l.2.record = u.2.record ∧ outcome l.1 = outcome u.1) ∨
      Overtaken k u l := by
  by_cases hdim : o.dimension = 0
  · rw [session, if_pos hdim]
    exact Or.inl ⟨Nat.zero_le k, rfl, rfl⟩
  · rw [exec_session cfg o hdim, exec_session cfg o hdim]
    have hfirst := Supported.phase_lockstep h o
      { frontier := .empty cfg.tolerances.dominance } (w := .start s) hk
    rcases hfirst with ⟨heq, hin⟩ | hfirst
    · have hfree : firstPhase cfg o free s = firstPhase cfg o clock s := heq
      rw [hfree]
      exact rest_lockstep hstrategy h o o.dimension fuel _ hin.1 hin.2
    · exact Or.inr (rest_of_outrun hstrategy hk h o o.dimension hfuel hfirst)

end Run

namespace Method

variable {K σ : Type} [Scalar K]

/-- Let the time of a run by splitting be over from its `k`th solve on, or from the
outset if `k` is zero. If the same run with all the time it needs makes at most `k`
solves, or one where `k` is zero, time does not matter. Otherwise the run makes the
first `k` solves of the other one, with the same terms in force and the same answers,
and it concludes incomplete. -/
theorem run_splitting_truncated (m : Method K) (hstrategy : m.config.strategy = .splitting)
    (fmt : ReportFormat K) (o : Oracle K σ) {fuel : ℕ} (hfuel : 0 < fuel) (s : σ) (files : Files)
    {free clock : Clock} {k : ℕ} (hfree : ∀ t, ¬m.config.timeLimit ≤ free t)
    (hclock : ∀ t, m.config.timeLimit ≤ clock t ↔ k ≤ t.solves) :
    let unlimited := m.run fmt o free fuel s files
    let limited := m.run fmt o clock fuel s files
    (unlimited.world.moment.solves ≤ max k 1 →
      limited.world.record = unlimited.world.record ∧
        Run.outcome limited.result = Run.outcome unlimited.result) ∧
    (max k 1 < unlimited.world.moment.solves →
      limited.world.moment.solves = max k 1 ∧
        (∀ t, asked t limited.world.record.toList =
          (asked t unlimited.world.record.toList).take (max k 1)) ∧
        ∃ c, limited.result = .ok c ∧ c.status = .partly) := by
  intro unlimited limited
  have hexpires : Expires m.config.timeLimit free clock (max k 1) := by
    refine ⟨hfree, fun t ht => ?_⟩
    rw [hclock, max_le_iff]
    exact (and_iff_left ht).symm
  have hcount := Session.solves_exec_start o clock (Run.session m.config o.dimension fuel) s
  have hcases := Run.session_lockstep hstrategy (lt_max_of_lt_right one_pos) hexpires o hfuel s
  simp only [unlimited, limited, run_result, run_world]
  rcases hcases with ⟨hle, hrecord, houtcome⟩ | ⟨hbehind, hahead, hpartly⟩
  · exact ⟨fun _ => ⟨hrecord, houtcome⟩, fun hlt => absurd hlt hle.not_gt⟩
  · refine ⟨fun hle => absurd hahead hle.not_gt, fun _ => ⟨hbehind.solves_eq, ?_, hpartly⟩⟩
    exact hbehind.asked_eq_take (hcount.symm.trans hbehind.solves_eq)

/-- Three items, with time for the two anchors and the one chord between them. -/
theorem run_splitting_truncated_pickOne :
    let limited := ({ config := .plain .splitting } : Method ℚ).run .bare
      (Enumerator.oracle pickOne) (.jump (Config.plain .splitting).timeLimit 5) 9
      (.ofProgram pickOne none) .empty
    limited.world.moment.solves = 5 ∧ ∃ c, limited.result = .ok c ∧ c.status = .partly := by
  obtain ⟨-, htruncated⟩ := run_splitting_truncated { config := .plain .splitting } rfl .bare
    (Enumerator.oracle pickOne) (show 0 < 9 by decide) (.ofProgram pickOne none) .empty
    (Config.neverOver_plain .splitting) (Clock.le_jump_iff (by decide) 5)
  obtain ⟨hsolves, -, hpartly⟩ := htruncated (by decide +kernel)
  exact ⟨hsolves, hpartly⟩

end Method

end Biobjective
