import Biobjective.Proofs.Release
import Mathlib.Logic.Relation

/-!
# Repeated runs

A run by splitting that returns leaves an enumerator as it found it, but for the weights in
force and the count of solves: it releases its ranges and excludes nothing. A run begins by
telling weights, and no answer depends on the count. So a run can be repeated, after any
number of other runs, and as long as time is never over it comes to the same conclusion,
down to the counters. The main result is `Method.baseline_restored`.
-/

namespace Biobjective

open Phase

/-- The run came to an end of its own, with a conclusion or a fault. -/
def Returned {α : Type} (result : Except Failure α) : Prop :=
  (∃ a, result = .ok a) ∨ ∃ fault, result = .error (.fault fault)

theorem Returned.fatal {α : Type} {cut : Cut}
    (h : Returned (.error cut.failure : Except Failure α)) : cut.Fatal := by
  rcases h with ⟨a, ha⟩ | ⟨fault, hfault⟩
  · cases ha
  · exact Cut.fatal_of_failure_eq (Except.error.inj hfault)

/-- What is told is undone by the end of the record. -/
structure Undone {K : Type} (record : List (Exchange K)) : Prop where
  releases : Releases record
  revocable : ∀ d, .told d ∈ record → d.Revocable

theorem Undone.append {K : Type} {record record' : List (Exchange K)} (h : Undone record)
    (h' : Undone record') : Undone (record ++ record') := by
  refine ⟨h.releases.append h'.releases, fun d hd => ?_⟩
  rcases List.mem_append.1 hd with hd | hd
  · exact h.revocable d hd
  · exact h'.revocable d hd

namespace Run

variable {K σ : Type} [Scalar K]

theorem undone_firstPhase (cfg : Config K) (o : Oracle K σ) (clock : Clock) (s : σ)
    (hreturn : (firstPhase cfg o clock s).1.1 ≠ .error .overflow) :
    Undone (firstPhase cfg o clock s).2.record.toList :=
  ⟨Supported.releases_phase o clock cfg _ (.start s) hreturn,
    fun _ => Supported.revocable_phase o clock cfg _ (.start s)⟩

theorem undone_splitting (o : Oracle K σ) (clock : Clock) (cfg : Config K) (fuel : ℕ)
    (p : Progress K) (w : World K σ) (status : Status)
    (hreturn : (hold o clock (Splitting.phase cfg fuel) p w).1.1 = .ok status) :
    Undone ((hold o clock (Splitting.phase cfg fuel) p w).2.since w) :=
  ⟨Splitting.releases_phase o clock cfg fuel p w hreturn,
    fun _ => Splitting.revocable_phase o clock cfg fuel p w⟩

theorem session_undone {cfg : Config K} (hstrategy : cfg.strategy = .splitting) (o : Oracle K σ)
    (clock : Clock) (fuel : ℕ) (s : σ)
    (hreturn : Returned ((session cfg o.dimension fuel).exec o clock (.start s)).1) :
    Undone ((session cfg o.dimension fuel).exec o clock (.start s)).2.record.toList := by
  by_cases hdim : o.dimension = 0
  · rw [session, if_pos hdim]
    exact ⟨.nil, fun _ hd => absurd hd List.not_mem_nil⟩
  · have hfirst := undone_firstPhase cfg o clock s
    rw [exec_session cfg o hdim] at hreturn ⊢
    generalize firstPhase cfg o clock s = e at hfirst hreturn
    rcases e with ⟨⟨cut | first, p⟩, w⟩
    · obtain ⟨stage, rfl⟩ := hreturn.fatal
      exact hfirst (by simp)
    · have hadds := adds_since o clock (Splitting.phase cfg fuel) p (w.time clock).2
      have hundone := undone_splitting o clock cfg fuel p (w.time clock).2
      have hcut : ∀ cut, (hold o clock (secondPhase cfg o.dimension fuel) p
          (w.time clock).2).1.1 = .error cut → ¬cut.Fatal :=
        fun _ => not_fatal_secondPhase o clock cfg o.dimension fuel p (w.time clock).2
      rw [secondPhase_splitting hstrategy] at hcut
      rw [exec_rest, secondPhase_splitting hstrategy] at hreturn ⊢
      generalize hold o clock (Splitting.phase cfg fuel) p (w.time clock).2 = e at *
      rcases e with ⟨⟨cut | second, p'⟩, w'⟩
      · exact absurd hreturn.fatal (hcut cut rfl)
      · have hrecord : w'.record.toList = w.record.toList ++ w'.since (w.time clock).2 :=
          hadds.record_eq
        change Undone w'.record.toList
        rw [hrecord]
        exact (hfirst (by simp)).append (hundone second rfl)

end Run

namespace Enumerator

section Alike

variable {K : Type} {e e' e'' : Enumerator K}

/-- The enumerators have the same program, limit, ranges and exclusions. -/
def Alike (e e' : Enumerator K) : Prop :=
  ∃ weights solves, e' = { e with weights, solves }

theorem Alike.refl (e : Enumerator K) : e.Alike e := ⟨e.weights, e.solves, rfl⟩

theorem Alike.trans (h : e.Alike e') (h' : e'.Alike e'') : e.Alike e'' := by
  obtain ⟨weights, solves, rfl⟩ := h
  obtain ⟨weights', solves', rfl⟩ := h'
  exact ⟨weights', solves', rfl⟩

theorem Alike.program_eq (h : e.Alike e') : e'.program = e.program := by
  obtain ⟨weights, solves, rfl⟩ := h
  rfl

theorem Alike.excluded_eq (h : e.Alike e') : e'.excluded = e.excluded := by
  obtain ⟨weights, solves, rfl⟩ := h
  rfl

/-- No objective is held in a range. -/
def Cleared (e : Enumerator K) : Prop := e.first = .unbounded ∧ e.second = .unbounded

theorem Alike.cleared (h : e.Alike e') (he : e.Cleared) : e'.Cleared := by
  obtain ⟨weights, solves, rfl⟩ := h
  exact he

end Alike

variable {K : Type} [Scalar K]

/-- The enumerators differ in the count of solves only. -/
def Recounted (e e' : Enumerator K) : Prop := ∃ solves, e' = { e with solves }

theorem Recounted.follow {e e' : Enumerator K} (h : e.Recounted e') (d : Directive K) :
    (e.follow d).Recounted (e'.follow d) := by
  obtain ⟨solves, rfl⟩ := h
  refine ⟨solves, ?_⟩
  rcases d with _ | ⟨_ | _, _⟩ | (_ | _) | _ <;> rfl

theorem Recounted.solve {e e' : Enumerator K} (h : e.Recounted e') :
    e'.solve.1 = e.solve.1 ∧ e.solve.2.Recounted e'.solve.2 := by
  obtain ⟨solves, rfl⟩ := h
  exact ⟨rfl, solves + 1, rfl⟩

/-- Telling weights makes up for those in which the two differ. -/
theorem Alike.follow_weights {e e' : Enumerator K} (h : e.Alike e') (w : Weights K) :
    (e.follow (.weights w)).Recounted (e'.follow (.weights w)) := by
  obtain ⟨weights, solves, rfl⟩ := h
  exact ⟨solves, rfl⟩

/-- The enumerator has come from `e` by directives that amount to `t` and exclude nothing. -/
structure Under (e : Enumerator K) (t : Terms K) (e' : Enumerator K) : Prop where
  program : e'.program = e.program
  nodeLimit? : e'.nodeLimit? = e.nodeLimit?
  excluded : e'.excluded = e.excluded
  first : e'.first = t.first
  second : e'.second = t.second

theorem Under.follow {e e' : Enumerator K} {t : Terms K} (h : e.Under t e') {d : Directive K}
    (hd : d.Revocable) : e.Under (t.follow d) (e'.follow d) := by
  obtain ⟨hprogram, hlimit, hexcluded, hfirst, hsecond⟩ := h
  rcases d with w | ⟨_ | _, range⟩ | (_ | _) | literals
  · exact ⟨hprogram, hlimit, hexcluded, hfirst, hsecond⟩
  · exact ⟨hprogram, hlimit, hexcluded, rfl, hsecond⟩
  · exact ⟨hprogram, hlimit, hexcluded, hfirst, rfl⟩
  · exact ⟨hprogram, hlimit, hexcluded, rfl, hsecond⟩
  · exact ⟨hprogram, hlimit, hexcluded, hfirst, rfl⟩
  · exact absurd rfl (hd literals)

theorem Under.after {e e' : Enumerator K} {t : Terms K} (h : e.Under t e') (p : Program K)
    {record : List (Exchange K)} (hrecord : ∀ d, .told d ∈ record → d.Revocable) :
    e.Under (t.after (record.map Exchange.call))
      ((oracle p).after e' (record.map Exchange.call)) := by
  induction record generalizing e' t with
  | nil => exact h
  | cons x record ih =>
      have htail : ∀ d, .told d ∈ record → d.Revocable :=
        fun d hd => hrecord d (List.mem_cons_of_mem x hd)
      cases x with
      | told d => exact ih (h.follow (hrecord d List.mem_cons_self)) htail
      | solved a =>
          exact ih ⟨h.program, h.nodeLimit?, h.excluded, h.first, h.second⟩ htail

/-- Calls that are undone leave an enumerator without ranges as it was. -/
theorem Cleared.alike_after {e : Enumerator K} (h : e.Cleared) (p : Program K)
    {record : List (Exchange K)} (hrecord : Undone record) :
    e.Alike ((oracle p).after e (record.map Exchange.call)) := by
  let t : Terms K := ⟨e.weights, .unbounded, .unbounded, []⟩
  have hunder : e.Under t e := ⟨rfl, rfl, rfl, h.1, h.2⟩
  have hafter := hunder.after p hrecord.revocable
  have hunranged := hrecord.releases.unranged_after (t := t) fun i => by cases i <;> rfl
  generalize (oracle p).after e (record.map Exchange.call) = e' at hafter
  have hfirst : e'.first = e.first := by rw [hafter.first, h.1]; exact hunranged .first
  have hsecond : e'.second = e.second := by rw [hafter.second, h.2]; exact hunranged .second
  refine ⟨e'.weights, e'.solves, ?_⟩
  rw [← hafter.program, ← hafter.nodeLimit?, ← hafter.excluded, ← hfirst, ← hsecond]

/-- A run by splitting returns and turns the one enumerator into the other. -/
def SplittingRun (e e' : Enumerator K) : Prop :=
  ∃ (m : Method K) (fmt : ReportFormat K) (clock : Clock) (fuel : ℕ) (files : Files),
    m.config.strategy = .splitting ∧
      Returned (m.run fmt (oracle e.program) clock fuel e files).result ∧
      (m.run fmt (oracle e.program) clock fuel e files).world.oracle = e'

theorem Cleared.alike_of_run {e e' : Enumerator K} (h : e.Cleared) (hrun : e.SplittingRun e') :
    e.Alike e' := by
  obtain ⟨m, fmt, clock, fuel, files, hstrategy, hreturn, rfl⟩ := hrun
  rw [Method.run_result] at hreturn
  have hundone := Run.session_undone hstrategy (oracle e.program) clock fuel e hreturn
  obtain ⟨tail, hrecord, -, horacle⟩ := Session.exec_record (oracle e.program) clock
    (Run.session m.config (oracle e.program).dimension fuel) (.start e)
  have hstart : (World.start e : World K (Enumerator K)).record.toList = [] := rfl
  rw [hrecord, hstart, List.nil_append] at hundone
  rw [Method.run_world, horacle]
  exact h.alike_after e.program hundone

theorem Cleared.alike_of_runs {e e' : Enumerator K} (h : e.Cleared)
    (hruns : Relation.ReflTransGen SplittingRun e e') : e.Alike e' := by
  induction hruns with
  | refl => exact .refl e
  | tail _ hrun ih => exact ih.trans ((ih.cleared h).alike_of_run hrun)

end Enumerator

/-- Where two states of an oracle answer alike for ever, a session takes the same course
from both. -/
theorem Session.exec_congr {K σ α : Type} {o : Oracle K σ} {R : σ → σ → Prop}
    (hfollow : ∀ s s' d, R s s' → R (o.follow s d) (o.follow s' d))
    (hsolve : ∀ s s', R s s' → (o.solve s').1 = (o.solve s).1 ∧ R (o.solve s).2 (o.solve s').2)
    (c : Clock) (x : Session K α) (w : World K σ) {s' : σ} (hs : R w.oracle s') :
    ∃ s'', x.exec o c { w with oracle := s' } =
      ((x.exec o c w).1, { (x.exec o c w).2 with oracle := s'' }) := by
  induction x generalizing w s' with
  | done a => exact ⟨s', rfl⟩
  | tell d next ih => exact ih (w.tell o d) (hfollow _ _ d hs)
  | clock next ih => exact ih (c w.moment) (w.time c).2 hs
  | solve next ih =>
      obtain ⟨hanswer, hstate⟩ := hsolve _ _ hs
      obtain ⟨s'', hnext⟩ := ih (w.solve o).1 (w.solve o).2 hstate
      refine ⟨s'', Eq.trans ?_ hnext⟩
      simp only [Session.exec, World.solve, hanswer]

/-- The conclusion without the times. -/
def Conclusion.timeless {K : Type} (c : Conclusion K) : Conclusion K :=
  { c with statistics := c.statistics.counters }

namespace Run

variable {K σ : Type} [Scalar K]

theorem exists_session_eq_tell (cfg : Config K) {dimension : ℕ} (hdim : dimension ≠ 0)
    (fuel : ℕ) : ∃ next, session cfg dimension fuel =
      .tell (.weights Anchor.upperLeft.levelWeights) next :=
  ⟨_, session_eq cfg hdim fuel⟩

/-- A run comes to the same result from enumerators that are alike. -/
theorem session_alike (cfg : Config K) (fuel : ℕ) (clock : Clock) {e e' : Enumerator K}
    (h : e.Alike e') (p : Program K) :
    ((session cfg (Enumerator.oracle p).dimension fuel).exec (Enumerator.oracle p) clock
        (.start e')).1 =
      ((session cfg (Enumerator.oracle p).dimension fuel).exec (Enumerator.oracle p) clock
        (.start e)).1 := by
  have hdim : (Enumerator.oracle p).dimension ≠ 0 := p.dimension_ne_zero
  obtain ⟨next, hnext⟩ := exists_session_eq_tell cfg hdim fuel
  obtain ⟨s'', hexec⟩ := Session.exec_congr (o := Enumerator.oracle p)
    (fun _ _ d hs => hs.follow d) (fun _ _ hs => hs.solve) clock next
    ((World.start e).tell (Enumerator.oracle p) (.weights Anchor.upperLeft.levelWeights))
    (h.follow_weights _)
  have hresult := congrArg Prod.fst hexec
  rw [hnext]
  exact hresult

/-- Two clocks under which time is never over are the same to a run. -/
theorem session_of_neverOver {cfg : Config K} (hstrategy : cfg.strategy = .splitting)
    (o : Oracle K σ) {fuel : ℕ} (hfuel : 0 < fuel) (s : σ) {clock clock' : Clock}
    (hclock : ∀ t, ¬cfg.timeLimit ≤ clock t) (hclock' : ∀ t, ¬cfg.timeLimit ≤ clock' t) :
    let ran := (session cfg o.dimension fuel).exec o clock (.start s)
    let ran' := (session cfg o.dimension fuel).exec o clock' (.start s)
    ran'.2.record = ran.2.record ∧ outcome ran'.1 = outcome ran.1 := by
  intro ran ran'
  -- Both take the course of a run whose time is over after all of their solves.
  have hlimit : ¬cfg.timeLimit ≤ .zero :=
    fun hle => hclock ⟨0, 0⟩ (Nat.le_trans hle (Nat.zero_le _))
  let k := max ran.2.moment.solves ran'.2.moment.solves + 1
  have hexpires : ∀ free : Clock, (∀ t, ¬cfg.timeLimit ≤ free t) →
      Expires cfg.timeLimit free (.jump cfg.timeLimit k) k :=
    fun free hfree => ⟨hfree, fun t _ => Clock.le_jump_iff hlimit k t⟩
  have hsteps := session_lockstep hstrategy (Nat.succ_pos _) (hexpires clock hclock) o hfuel s
  have hsteps' := session_lockstep hstrategy (Nat.succ_pos _) (hexpires clock' hclock') o hfuel s
  have hle : ran.2.moment.solves ≤ k := Nat.le_succ_of_le (Nat.le_max_left _ _)
  have hle' : ran'.2.moment.solves ≤ k := Nat.le_succ_of_le (Nat.le_max_right _ _)
  obtain ⟨-, hrecord, houtcome⟩ := hsteps.resolve_right fun h => absurd h.ahead hle.not_gt
  obtain ⟨-, hrecord', houtcome'⟩ := hsteps'.resolve_right fun h => absurd h.ahead hle'.not_gt
  exact ⟨hrecord'.symm.trans hrecord, houtcome'.symm.trans houtcome⟩

/-- The outcome of a run and its record determine the counters. -/
theorem timeless_eq {cfg : Config K} {o : Oracle K σ} {clock clock' : Clock} {fuel : ℕ} {s : σ}
    (hrecord : ((session cfg o.dimension fuel).exec o clock' (.start s)).2.record =
      ((session cfg o.dimension fuel).exec o clock (.start s)).2.record)
    (houtcome : outcome ((session cfg o.dimension fuel).exec o clock' (.start s)).1 =
      outcome ((session cfg o.dimension fuel).exec o clock (.start s)).1) :
    ((session cfg o.dimension fuel).exec o clock' (.start s)).1.map Conclusion.timeless =
      ((session cfg o.dimension fuel).exec o clock (.start s)).1.map Conclusion.timeless := by
  have hcounters := @session_counters K σ _ cfg o clock fuel s
  have hcounters' := @session_counters K σ _ cfg o clock' fuel s
  rw [hrecord] at hcounters'
  generalize (session cfg o.dimension fuel).exec o clock' (.start s) = ran' at *
  generalize (session cfg o.dimension fuel).exec o clock (.start s) = ran at *
  rcases ran with ⟨failure | c, w⟩ <;> rcases ran' with ⟨failure' | c', w'⟩
  · cases houtcome
    rfl
  · cases houtcome
  · cases houtcome
  · obtain ⟨work, hwork, hstatistics⟩ := hcounters rfl
    obtain ⟨work', hwork', hstatistics'⟩ := hcounters' rfl
    rw [hwork] at hwork'
    cases hwork'
    have hpair : (c'.status, c'.frontier) = (c.status, c.frontier) := Except.ok.inj houtcome
    obtain ⟨hstatus, hfrontier⟩ := Prod.mk.inj hpair
    refine congrArg Except.ok ?_
    rw [Conclusion.timeless, Conclusion.timeless, hstatistics, hstatistics', hstatus, hfrontier]

end Run

namespace Method

/-- A run by splitting that time cannot cut comes to the same conclusion from enumerators
that are alike. -/
theorem rerun_eq {K : Type} [Scalar K] {e e' : Enumerator K} (h : e.Alike e') {m m' : Method K}
    (hconfig : m'.config = m.config) (hstrategy : m.config.strategy = .splitting)
    (fmt : ReportFormat K) {fuel : ℕ} (hfuel : 0 < fuel) (files files' : Files)
    {clock clock' : Clock} (hclock : ∀ t, ¬m.config.timeLimit ≤ clock t)
    (hclock' : ∀ t, ¬m.config.timeLimit ≤ clock' t) :
    (m'.run fmt (Enumerator.oracle e'.program) clock' fuel e' files').result.map
        Conclusion.timeless =
      (m.run fmt (Enumerator.oracle e.program) clock fuel e files).result.map
        Conclusion.timeless := by
  rw [run_result, run_result, hconfig, h.program_eq, Run.session_alike _ _ _ h]
  obtain ⟨hrecord, houtcome⟩ := Run.session_of_neverOver hstrategy
    (Enumerator.oracle e.program) hfuel e hclock hclock'
  exact Run.timeless_eq hrecord houtcome

theorem run_config {K σ : Type} [Scalar K] (m : Method K) (fmt : ReportFormat K) (o : Oracle K σ)
    (clock : Clock) (fuel : ℕ) (oracle : σ) (files : Files) :
    (m.run fmt o clock fuel oracle files).method.config = m.config := by
  rw [run_method]
  cases (m.run fmt o clock fuel oracle files).result with
  | ok c => rfl
  | error failure => rfl

/-- Each phase that returns has released the ranges that it told; the first one returns unless
the node counter overflows. In the first phase the ranges in force at each solve are as
scheduled, and neither it nor splitting excludes anything. So any number of runs by splitting
leave an enumerator without ranges as it was, and where time is never over a run comes to the
same conclusion each time. -/
theorem baseline_restored {K σ : Type} [Scalar K] :
    (∀ (o : Oracle K σ) (clock : Clock) (cfg : Config K) (p : Progress K) (w : World K σ),
      let first := hold o clock (Supported.phase cfg) p w
      (first.1.1 ≠ .error .overflow → Releases (first.2.since w)) ∧
        (∀ d, .told d ∈ first.2.since w → d.Revocable) ∧
        ∀ t : Terms K, t.Unranged → ∀ n q, (asked t (first.2.since w))[n]? = some q →
          Supported.Scheduled n q.1) ∧
    (∀ (o : Oracle K σ) (clock : Clock) (cfg : Config K) (fuel : ℕ) (p : Progress K)
      (w : World K σ),
      let second := hold o clock (Splitting.phase cfg fuel) p w
      (∀ status, second.1.1 = .ok status → Releases (second.2.since w)) ∧
        ∀ d, .told d ∈ second.2.since w → d.Revocable) ∧
    (∀ (o : Oracle K σ) (clock : Clock) (cfg : Config K) (dimension fuel : ℕ) (p : Progress K)
      (w : World K σ),
      let second := hold o clock (Ranking.phase cfg dimension fuel) p w
      ∀ status, second.1.1 = .ok status → Releases (second.2.since w)) ∧
    ∀ e e' : Enumerator K, e.Cleared → Relation.ReflTransGen Enumerator.SplittingRun e e' →
      e'.Cleared ∧ e'.excluded = e.excluded ∧
      ∀ m m' : Method K, m'.config = m.config → m.config.strategy = .splitting →
        ∀ (fmt : ReportFormat K) (fuel : ℕ) (files files' : Files) (clock clock' : Clock),
        0 < fuel → (∀ t, ¬m.config.timeLimit ≤ clock t) →
        (∀ t, ¬m.config.timeLimit ≤ clock' t) →
          (m'.run fmt (Enumerator.oracle e'.program) clock' fuel e' files').result.map
              Conclusion.timeless =
            (m.run fmt (Enumerator.oracle e.program) clock fuel e files).result.map
              Conclusion.timeless := by
  refine ⟨fun o clock cfg p w => ⟨?_, ?_, ?_⟩, fun o clock cfg fuel p w => ⟨?_, ?_⟩, ?_, ?_⟩
  · exact Supported.releases_phase o clock cfg p w
  · exact fun _ => Supported.revocable_phase o clock cfg p w
  · exact fun _ ht _ _ => Supported.scheduled_phase o clock cfg p w ht
  · exact fun _ => Splitting.releases_phase o clock cfg fuel p w
  · exact fun _ => Splitting.revocable_phase o clock cfg fuel p w
  · exact fun o clock cfg dimension fuel p w _ =>
      Ranking.releases_phase o clock cfg dimension fuel p w
  · intro e e' hcleared hruns
    have halike := hcleared.alike_of_runs hruns
    refine ⟨halike.cleared hcleared, halike.excluded_eq, ?_⟩
    intro m m' hconfig hstrategy fmt fuel files files' clock clock' hfuel hclock hclock'
    exact rerun_eq halike hconfig hstrategy fmt hfuel files files' hclock hclock'

/-- Three items: the phases return, and a second run with the same oracle concludes as the
first one. -/
theorem baseline_restored_pickOne :
    let o := Enumerator.oracle pickOne
    let w : World ℚ (Enumerator ℚ) := .start (.ofProgram pickOne none)
    let first := hold o .still (Supported.phase (.plain .splitting))
      { frontier := .empty (1 / 1000) } w
    let split := hold o .still (Splitting.phase (.plain .splitting) 9) first.1.2 first.2
    let ranked := hold o .still (Ranking.phase (.plain .ranking) 3 9) first.1.2 first.2
    let e' := (runPickOne .splitting).world.oracle
    Releases (first.2.since w) ∧ Releases (split.2.since first.2) ∧
      Releases (ranked.2.since first.2) ∧ e'.Cleared ∧ e'.excluded = [] ∧
      ((runPickOne .splitting).method.run .bare (Enumerator.oracle e'.program) .still ampleFuel e'
          (runPickOne .splitting).files).result.map Conclusion.timeless =
        (runPickOne .splitting).result.map Conclusion.timeless := by
  intro o w first split ranked e'
  obtain ⟨hfirst, hsplit, hranked, hruns⟩ := @baseline_restored ℚ (Enumerator ℚ) _
  have hrun : (Enumerator.ofProgram pickOne none).SplittingRun e' := by
    obtain ⟨c, hrun, -⟩ := exists_run_completed (m := { config := .plain .splitting })
      wholeObjectives_pickOne (Config.fine_plain .splitting) .bare .empty
      (Run.fills_splitting wholeObjectives_pickOne rfl .still none ampleFuel) feasible_pickOne
      ⟨rfl, Config.neverOver_plain .splitting⟩ (by decide)
    exact ⟨{ config := .plain .splitting }, .bare, .still, ampleFuel, .empty, rfl,
      Or.inl ⟨c, hrun⟩, rfl⟩
  obtain ⟨hcleared, hexcluded, hrerun⟩ := hruns _ e' ⟨rfl, rfl⟩ (.single hrun)
  refine ⟨(hfirst o .still _ _ w).1 (by decide +kernel),
    (hsplit o .still _ 9 _ first.2).1 .completed (by decide +kernel),
    hranked o .still _ 3 9 _ first.2 .completed (by decide +kernel), hcleared, hexcluded, ?_⟩
  have hconfig : (runPickOne .splitting).method.config = .plain .splitting := run_config ..
  exact hrerun { config := .plain .splitting } (runPickOne .splitting).method hconfig rfl .bare
    ampleFuel .empty _ .still .still (by decide) (Config.neverOver_plain .splitting)
    (Config.neverOver_plain .splitting)

end Method

end Biobjective
