import Biobjective.Command
import Biobjective.Proofs.NodeBudget

/-!
# Steps on a host

A step of a command ends with a value or ends the command, and leaves the host in a state. The
host is any host whose actions are functions of its state, so its clock may show anything, and it
may refuse room or a print at any time. `Command.Crashes` says that a step ends the command by a
crash, and each step has its exact causes.

A session that is held on such a host goes as one with a clock that is given beforehand, unless
there is no room for one of its solves: `Command.perform_converse`. So a run crashes exactly if
that happens or if its nodes cannot be counted (`Command.crashes_run_iff`), and it does not run
out of fuel (`Command.settles_run`).
-/

namespace Biobjective

theorem Cut.eq_addOverflow_of_failure_eq {cut : Cut} (hcut : cut ≠ .tooManyVariables)
    {cause : Crash} (h : cut.failure = .crash cause) : cause = .addOverflow := by
  cases cut with
  | overflow => exact (Failure.crash.inj h).symm
  | tooManyVariables => exact absurd rfl hcut
  | timeout => cases h
  | infeasible stage => cases h
  | outOfFuel => cases h

/-- Where an assignment can be held, a run crashes only in an addition. -/
theorem Run.crash_eq_addOverflow {K σ : Type} [Scalar K] {cfg : Config K} {o : Oracle K σ}
    (hdim : o.dimension ≤ maxLength) {clock : Clock} {fuel : ℕ} {s : σ} {cause : Crash}
    (h : ((session cfg o.dimension fuel).exec o clock (.start s)).1 = .error (.crash cause)) :
    cause = .addOverflow := by
  let r : Phase.Rules K := { cut := fun cut => cut ≠ .tooManyVariables }
  have hfirst : r.AllowsFirst cfg :=
    { timeout := nofun, overflow := nofun, infeasible := fun _ => nofun }
  have hsecond : r.AllowsSecond cfg := { cut := fun _ _ hcut => hcut }
  by_cases hzero : o.dimension = 0
  · rw [session, if_pos hzero] at h
    cases h
  · have hends := Supported.abides_phase (r := r) o.vouches_trivial hfirst clock
      { frontier := .empty cfg.tolerances.dominance } (.start s) trivial trivial
    change Phase.Honours _ _ _ _ _ (firstPhase cfg o clock s) at hends
    rw [exec_session cfg o hzero] at h
    generalize firstPhase cfg o clock s = e at h hends
    rcases e with ⟨⟨cut | first, p⟩, w⟩
    · exact Cut.eq_addOverflow_of_failure_eq (hends.cut cut rfl) (Except.error.inj h)
    · have hends' := abides_secondPhase (r := r) o.vouches_trivial { hsecond with }
        { hsecond with } (fun hlong => absurd hlong (not_lt.2 hdim)) fuel clock p (w.time clock).2
        trivial trivial
      rw [exec_rest] at h
      generalize Phase.hold o clock (secondPhase cfg o.dimension fuel) p (w.time clock).2 = e
        at h hends'
      rcases e with ⟨⟨cut | second, p'⟩, w'⟩
      · exact Cut.eq_addOverflow_of_failure_eq (hends'.cut cut rfl) (Except.error.inj h)
      · cases h

namespace Command

section Steps

variable {σ α β : Type}

/-- What a step ends with, and the state of the host after it. -/
def perform (x : Step (StateM σ) α) (s : σ) : Except Outcome α × σ := x.run s

/-- The step ends the command by a crash. -/
def Crashes (x : Step (StateM σ) α) (s : σ) (cause : Crash) : Prop :=
  (perform x s).1 = .error (.ended (.crashed cause))

/-- If the step ends the command, then with an outcome for which `good` holds. -/
def Stops (good : Outcome → Prop) (x : Step (StateM σ) α) : Prop :=
  ∀ s o, (perform x s).1 = .error o → good o

/-- The outcome is an end without a crash. -/
def Orderly (o : Outcome) : Prop := ∃ exit, o = .ended exit ∧ ∀ cause, exit ≠ .crashed cause

theorem orderly_refused (message : String) : Orderly (.ended (.refused message)) :=
  ⟨_, rfl, nofun⟩

theorem perform_pure (a : α) (s : σ) : perform (pure a) s = (.ok a, s) := rfl

theorem perform_throw (o : Outcome) (s : σ) :
    perform (throw o : Step (StateM σ) α) s = (.error o, s) := rfl

theorem perform_ask (x : StateM σ α) (s : σ) : perform (ask x) s = (.ok (x s).1, (x s).2) := rfl

theorem perform_bind (x : Step (StateM σ) α) (f : α → Step (StateM σ) β) (s : σ) :
    perform (x >>= f) s =
      match perform x s with
      | (.ok a, s') => perform (f a) s'
      | (.error o, s') => (.error o, s') := by
  have hbind : perform (x >>= f) s = ExceptT.bindCont f (perform x s).1 (perform x s).2 := rfl
  rw [hbind]
  rcases perform x s with ⟨o | a, s'⟩
  · rfl
  · rfl

theorem perform_orEnd_ok_iff {ε : Type} {outcome : ε → Outcome} {r : Except ε α} {a : α}
    {s s' : σ} : perform (orEnd outcome r) s = (.ok a, s') ↔ r = .ok a ∧ s = s' := by
  cases r with
  | ok b => simp [orEnd, perform_pure]
  | error e => simp [orEnd, perform_throw]

theorem crashes_bind {x : Step (StateM σ) α} {f : α → Step (StateM σ) β} {s : σ} {cause : Crash} :
    Crashes (x >>= f) s cause ↔
      Crashes x s cause ∨ ∃ a s', perform x s = (.ok a, s') ∧ Crashes (f a) s' cause := by
  rw [Crashes, Crashes, perform_bind]
  rcases perform x s with ⟨o | a, s'⟩
  · simp
  · simp [Crashes]

theorem crashes_ask_bind {x : StateM σ α} {f : α → Step (StateM σ) β} {s : σ} {cause : Crash} :
    Crashes (ask x >>= f) s cause ↔ Crashes (f (x s).1) (x s).2 cause := by
  rw [Crashes, Crashes, perform_bind, perform_ask]

theorem crashes_orEnd {ε : Type} {outcome : ε → Outcome} {r : Except ε α} {s : σ}
    {cause : Crash} :
    Crashes (orEnd outcome r) s cause ↔ ∃ e, r = .error e ∧ outcome e = .ended (.crashed cause) := by
  cases r with
  | ok b => simp [orEnd, Crashes, perform_pure]
  | error e => simp [orEnd, Crashes, perform_throw]

theorem Stops.not_crashes {x : Step (StateM σ) α} (h : Stops Orderly x) (s : σ) (cause : Crash) :
    ¬Crashes x s cause := by
  intro hcrash
  obtain ⟨exit, hexit, hne⟩ := h s _ hcrash
  exact hne cause (Outcome.ended.inj hexit).symm

theorem Stops.mono {good good' : Outcome → Prop} {x : Step (StateM σ) α} (h : Stops good x)
    (himp : ∀ o, good o → good' o) : Stops good' x := fun s o ho => himp o (h s o ho)

section

variable {good : Outcome → Prop}

theorem stops_pure (a : α) : Stops good (pure a : Step (StateM σ) α) := by
  intro s o ho
  cases ho

theorem stops_throw {o : Outcome} (h : good o) : Stops good (throw o : Step (StateM σ) α) := by
  intro s o' ho
  cases ho
  exact h

theorem stops_ask (x : StateM σ α) : Stops good (ask x) := by
  intro s o ho
  cases ho

theorem stops_orEnd {ε : Type} {outcome : ε → Outcome} {r : Except ε α}
    (h : ∀ e, r = .error e → good (outcome e)) :
    Stops good (orEnd outcome r : Step (StateM σ) α) := by
  cases r with
  | ok a => exact stops_pure a
  | error e => exact stops_throw (h e rfl)

theorem Stops.bind {x : Step (StateM σ) α} {f : α → Step (StateM σ) β} (hx : Stops good x)
    (hf : ∀ a, Stops good (f a)) : Stops good (x >>= f) := by
  intro s o ho
  have hends := hx s
  rw [perform_bind] at ho
  generalize perform x s = ended at hends ho
  rcases ended with ⟨o' | a, s'⟩
  · cases ho
    exact hends o rfl
  · exact hf a s' o ho

end

theorem finish_apply (x : Step (StateM σ) Exit) (s : σ) :
    (finish x s).1 = match (perform x s).1 with
      | .ok exit => .ended exit
      | .error o => o := by
  have hfinish : finish x s = (match (perform x s).1 with
      | .ok exit => (pure (.ended exit) : StateM σ Outcome)
      | .error o => pure o) (perform x s).2 := rfl
  rw [hfinish]
  rcases perform x s with ⟨o | exit, s'⟩
  · rfl
  · rfl

/-- A command crashes in its first step or after it. -/
theorem finish_bind_iff {x : Step (StateM σ) α} {f : α → Step (StateM σ) Exit} {s : σ}
    {cause : Crash} :
    (finish (x >>= f) s).1 = .ended (.crashed cause) ↔
      Crashes x s cause ∨
        ∃ a s', perform x s = (.ok a, s') ∧ (finish (f a) s').1 = .ended (.crashed cause) := by
  rw [finish_apply, Crashes, perform_bind]
  rcases perform x s with ⟨o | a, s'⟩
  · simp
  · simp [finish_apply]

theorem finish_pure (exit : Exit) (s : σ) :
    (finish (pure exit : Step (StateM σ) Exit) s).1 = .ended exit := rfl

theorem Stops.finish_ne {x : Step (StateM σ) Exit} (h : Stops (· ≠ .unfinished) x) (s : σ) :
    (finish x s).1 ≠ .unfinished := by
  rw [finish_apply]
  cases hends : (perform x s).1 with
  | ok exit => nofun
  | error o => exact h s o hends

end Steps

variable {σ : Type} [Host (StateM σ)]

section Resources

/-- The host has no room for so many numbers. -/
def Full (count : ℕ) (s : σ) : Prop := ((Host.reserve count : StateM σ Bool) s).1 = false

/-- The host after it was asked for room. -/
def reserved (count : ℕ) (s : σ) : σ := ((Host.reserve count : StateM σ Bool) s).2

theorem perform_hold (count : ℕ) (s : σ) :
    perform (hold count) s =
      (if ((Host.reserve count : StateM σ Bool) s).1 then .ok ()
        else .error (.ended (.crashed .outOfMemory)), reserved count s) := by
  rw [hold, perform_bind, perform_ask]
  dsimp only
  cases ((Host.reserve count : StateM σ Bool) s).1 with
  | true => rfl
  | false => rfl

theorem crashes_hold_iff {count : ℕ} {s : σ} {cause : Crash} :
    Crashes (hold count) s cause ↔ cause = .outOfMemory ∧ Full count s := by
  rw [Crashes, perform_hold, Full]
  cases ((Host.reserve count : StateM σ Bool) s).1 with
  | true => simp
  | false => simp [eq_comm]

theorem perform_hold_ok_iff {count : ℕ} {s s' : σ} :
    perform (hold count) s = (.ok (), s') ↔ ¬Full count s ∧ reserved count s = s' := by
  rw [perform_hold, Full]
  cases ((Host.reserve count : StateM σ Bool) s).1 with
  | true => simp
  | false => simp

/-- A step that needs room crashes for want of it or after it was given. -/
theorem crashes_hold_bind {α : Type} {count : ℕ} {f : Unit → Step (StateM σ) α} {s : σ}
    {cause : Crash} :
    Crashes (hold count >>= f) s cause ↔
      (cause = .outOfMemory ∧ Full count s) ∨
        (¬Full count s ∧ Crashes (f ()) (reserved count s) cause) := by
  rw [crashes_bind, crashes_hold_iff]
  refine or_congr_right ⟨?_, fun ⟨hroom, hrest⟩ => ?_⟩
  · rintro ⟨u, s', hhold, hrest⟩
    obtain ⟨hroom, rfl⟩ := perform_hold_ok_iff.1 hhold
    exact ⟨hroom, hrest⟩
  · exact ⟨(), _, perform_hold_ok_iff.2 ⟨hroom, rfl⟩, hrest⟩

theorem settles_hold (count : ℕ) :
    Stops (· ≠ .unfinished) (hold count : Step (StateM σ) Unit) := by
  refine (stops_ask _).bind fun room => ?_
  cases room with
  | true => exact stops_pure _
  | false => exact stops_throw nofun

/-- The host does not take one of some texts that are printed in turn. -/
inductive Unprinted : List String → σ → FileFault → Prop
  | first {text : String} {texts : List String} {s s' : σ} {fault : FileFault}
      (h : (Host.print text : StateM σ (Except FileFault Unit)) s = (.error fault, s')) :
      Unprinted (text :: texts) s fault
  | later {text : String} {texts : List String} {s s' : σ} {fault : FileFault}
      (h : (Host.print text : StateM σ (Except FileFault Unit)) s = (.ok (), s'))
      (hrest : Unprinted texts s' fault) : Unprinted (text :: texts) s fault

theorem crashes_printAll_iff {texts : List String} {s : σ} {cause : Crash} :
    Crashes (printAll texts) s cause ↔ ∃ fault, cause = .unprinted fault ∧ Unprinted texts s fault := by
  induction texts generalizing s with
  | nil => exact iff_of_false nofun (by rintro ⟨fault, -, h⟩; cases h)
  | cons text texts ih =>
      rw [printAll, crashes_ask_bind]
      rcases hprint : (Host.print text : StateM σ (Except FileFault Unit)) s with ⟨fault | _, s'⟩
      · constructor
        · intro h
          cases h
          exact ⟨fault, rfl, .first hprint⟩
        · rintro ⟨fault', rfl, h⟩
          cases h with
          | first h =>
              rw [hprint] at h
              cases h
              rfl
          | later h =>
              rw [hprint] at h
              cases h
      · change Crashes (printAll texts) s' cause ↔ _
        rw [ih]
        refine exists_congr fun fault => and_congr_right fun _ => ⟨.later hprint, fun h => ?_⟩
        cases h with
        | first h =>
            rw [hprint] at h
            cases h
        | later h hrest =>
            rw [hprint] at h
            cases h
            exact hrest

theorem settles_printAll (texts : List String) :
    Stops (· ≠ .unfinished) (printAll texts : Step (StateM σ) Unit) := by
  induction texts with
  | nil => exact stops_pure _
  | cons text texts ih =>
      refine (stops_ask _).bind fun result => ?_
      exact (stops_orEnd fun _ _ => nofun).bind fun _ => ih

end Resources

section Sessions

variable {α : Type}

/-- The times since `start` that a session reads on a host. -/
def timesOn (start : Duration) : Session Float α → Enumerator Float → σ → List Duration
  | .done _, _, _ => []
  | .tell d next, e, s => timesOn start next (e.follow d) s
  | .solve next, e, s => timesOn start (next e.solve.1) e.solve.2 (reserved e.program.dimension s)
  | .clock next, e, s =>
    let now := (Host.now : StateM σ Duration) s
    now.1.since start :: timesOn start (next (now.1.since start)) e now.2

/-- The host has no room for one of the solves of a session. -/
def Starved (start : Duration) : Session Float α → Enumerator Float → σ → Prop
  | .done _, _, _ => False
  | .tell d next, e, s => Starved start next (e.follow d) s
  | .solve next, e, s =>
    Full e.program.dimension s ∨
      Starved start (next e.solve.1) e.solve.2 (reserved e.program.dimension s)
  | .clock next, e, s =>
    let now := (Host.now : StateM σ Duration) s
    Starved start (next (now.1.since start)) e now.2

/-- The session, held from a state of the solver. -/
def talk (start : Duration) (session : Session Float α) (e : Enumerator Float) :
    Step (StateM σ) (α × Enumerator Float) :=
  session.interpret told solved (elapsed start) e

theorem perform_talk_clock (start : Duration) (next : Duration → Session Float α)
    (e : Enumerator Float) (s : σ) :
    perform (talk start (.clock next) e) s =
      perform (talk start (next (((Host.now : StateM σ Duration) s).1.since start)) e)
        ((Host.now : StateM σ Duration) s).2 := rfl

theorem perform_solved (e : Enumerator Float) (s : σ) :
    perform (solved e) s =
      match perform (hold e.program.dimension) s with
      | (.ok _, s') => (.ok e.solve, s')
      | (.error o, s') => (.error o, s') := by
  have hsolved : solved (m := StateM σ) e =
      (hold e.program.dimension >>= fun u => pure (u, e)) >>= fun _ => pure e.solve := rfl
  rw [hsolved, perform_bind, perform_bind]
  rcases perform (hold e.program.dimension : Step (StateM σ) Unit) s with ⟨o | u, s'⟩
  · rfl
  · rfl

theorem perform_talk_solve (start : Duration) (next : Answer Float → Session Float α)
    (e : Enumerator Float) (s : σ) :
    perform (talk start (.solve next) e) s =
      match perform (hold e.program.dimension) s with
      | (.ok _, s') => perform (talk start (next e.solve.1) e.solve.2) s'
      | (.error o, s') => (.error o, s') := by
  have hsolve : talk (σ := σ) start (.solve next) e =
      solved e >>= fun r => talk start (next r.1) r.2 := rfl
  rw [hsolve, perform_bind, perform_solved]
  rcases perform (hold e.program.dimension : Step (StateM σ) Unit) s with ⟨o | u, s'⟩
  · rfl
  · rfl

/-- A session on a host crashes for want of room, or goes as under a clock that shows the times of
the host. -/
theorem perform_talk (start : Duration) (p : Program Float) (session : Session Float α) (s : σ)
    (w : World Float (Enumerator Float)) :
    (Starved start session w.oracle s → Crashes (talk start session w.oracle) s .outOfMemory) ∧
      (¬Starved start session w.oracle s → ∀ clock : Clock,
        (∀ i t, (timesOn start session w.oracle s)[i]? = some t →
          ∀ solves, clock ⟨solves, w.moment.readings + i⟩ = t) →
        ∃ s', perform (talk start session w.oracle) s =
          (.ok ((session.exec (Enumerator.oracle p) clock w).1,
            (session.exec (Enumerator.oracle p) clock w).2.oracle), s')) := by
  induction session generalizing s w with
  | done a => exact ⟨False.elim, fun _ clock _ => ⟨s, rfl⟩⟩
  | tell d next ih => exact ih s (w.tell (Enumerator.oracle p) d)
  | solve next ih =>
      have hnext := ih w.oracle.solve.1 (reserved w.oracle.program.dimension s)
        (w.solve (Enumerator.oracle p)).2
      rw [Crashes, perform_talk_solve, perform_hold]
      cases hroom : ((Host.reserve w.oracle.program.dimension : StateM σ Bool) s).1 with
      | false => exact ⟨fun _ => rfl, fun hfed => absurd (Or.inl hroom) hfed⟩
      | true =>
          refine ⟨fun hstarved => ?_, fun hfed => hnext.2 fun h => hfed (Or.inr h)⟩
          exact hnext.1 (hstarved.resolve_left fun hfull => by cases hroom.symm.trans hfull)
  | clock next ih =>
      let now := (Host.now : StateM σ Duration) s
      refine ⟨(ih (now.1.since start) now.2 w).1, fun hfed clock hclock => ?_⟩
      have hnow : clock w.moment = now.1.since start := hclock 0 _ rfl _
      have hrest := (ih (now.1.since start) now.2 (w.time clock).2).2 hfed clock
      rw [perform_talk_clock, Session.exec, World.time, hnow]
      refine hrest fun i t ht solves => ?_
      have hshift := hclock (i + 1) t ht solves
      rwa [Nat.add_comm i 1, ← Nat.add_assoc] at hshift

/-- The times that a session reads on a host since its start. -/
def readingsOn (p : Program Float) (session : Session Float α) (s : σ) : List Duration :=
  let start := (Host.now : StateM σ Duration) s
  timesOn start.1 session (.ofProgram p none) start.2

/-- The clock of a session that is held on a host. -/
def clockOn (p : Program Float) (session : Session Float α) (s : σ) : Clock :=
  fun m => (readingsOn p session s).getD m.readings .zero

/-- The host has no room for a solve of a session that is held on it. -/
def StarvedOn (p : Program Float) (session : Session Float α) (s : σ) : Prop :=
  let start := (Host.now : StateM σ Duration) s
  Starved start.1 session (.ofProgram p none) start.2

theorem perform_converse (p : Program Float) (session : Session Float α) (s : σ) :
    (StarvedOn p session s → Crashes (converse p session) s .outOfMemory) ∧
      (¬StarvedOn p session s → ∃ s', perform (converse p session) s =
        (.ok (session.exec (Enumerator.oracle p) (clockOn p session s)
          (.start (.ofProgram p none))).1, s')) := by
  let start := (Host.now : StateM σ Duration) s
  have hconverse : converse (m := StateM σ) p session =
      ask Host.now >>= fun start =>
        talk start session (.ofProgram p none) >>= fun a => pure a.1 := rfl
  obtain ⟨hstarved, hfed⟩ := perform_talk start.1 p session start.2 (.start (.ofProgram p none))
  rw [hconverse, crashes_ask_bind, perform_bind, perform_ask]
  refine ⟨fun h => crashes_bind.2 (Or.inl (hstarved h)), fun h => ?_⟩
  obtain ⟨s', hends⟩ : ∃ s', perform (talk start.1 session (.ofProgram p none)) start.2 = _ :=
    hfed h (clockOn p session s) fun i t ht solves => by
      have hread : (readingsOn p session s)[i]? = some t := ht
      change (readingsOn p session s).getD (0 + i) .zero = t
      rw [Nat.zero_add, List.getD_eq_getElem?_getD, hread, Option.getD_some]
  refine ⟨s', ?_⟩
  change perform (talk start.1 session (.ofProgram p none) >>= fun a => pure a.1) start.2 = _
  rw [perform_bind, hends]
  rfl

/-- The answers to the solves of a run on a host. -/
def answersOn (cfg : Config Float) (p : Program Float) (s : σ) : List (Answer Float) :=
  let session := Run.session cfg p.dimension ampleFuel
  answersOf (session.exec (Enumerator.oracle p) (clockOn p session s)
    (.start (.ofProgram p none))).2.record.toList

/-- Why a run does not come to its end on a host. -/
inductive Unrun (cfg : Config Float) (p : Program Float) (s : σ) : Crash → Prop
  | room (h : StarvedOn p (Run.session cfg p.dimension ampleFuel) s) : Unrun cfg p s .outOfMemory
  | nodes (hroom : ¬StarvedOn p (Run.session cfg p.dimension ampleFuel) s)
      (h : Work.nodeBound ≤ nodesOf (answersOn cfg p s)) : Unrun cfg p s .addOverflow

theorem outcomeOf_eq_crashed_iff {f : Failure} {cause : Crash} :
    outcomeOf f = .ended (.crashed cause) ↔ f = .crash cause := by
  cases f <;> simp [outcomeOf]

theorem outcomeOf_ne_unfinished {f : Failure} (h : f ≠ .outOfFuel) : outcomeOf f ≠ .unfinished := by
  cases f with
  | fault f => nofun
  | crash c => nofun
  | outOfFuel => exact absurd rfl h

/-- What a run on a host comes to if there is room for its solves. -/
def resultOn (cfg : Config Float) (p : Program Float) (s : σ) : Except Failure (Conclusion Float) :=
  let session := Run.session cfg p.dimension ampleFuel
  (session.exec (Enumerator.oracle p) (clockOn p session s) (.start (.ofProgram p none))).1

theorem perform_run (cfg : Config Float) (p : Program Float) (s : σ) :
    (StarvedOn p (Run.session cfg p.dimension ampleFuel) s →
      (perform (run outcomeOf cfg p) s).1 = .error (.ended (.crashed .outOfMemory))) ∧
    (¬StarvedOn p (Run.session cfg p.dimension ampleFuel) s →
      (perform (run outcomeOf cfg p) s).1 = (resultOn cfg p s).mapError outcomeOf) := by
  obtain ⟨hstarved, hfed⟩ := perform_converse p (Run.session cfg p.dimension ampleFuel) s
  rw [run]
  refine ⟨fun h => crashes_bind.2 (Or.inl (hstarved h)), fun h => ?_⟩
  obtain ⟨s', hends⟩ := hfed h
  rw [perform_bind, hends]
  change (perform (orEnd outcomeOf (resultOn cfg p s)) s').1 = _
  cases resultOn cfg p s with
  | ok c => rfl
  | error f => rfl

/-- A run crashes exactly if there is no room for a solve or its nodes cannot be counted. -/
theorem crashes_run_iff {cfg : Config Float} {p : Program Float} {s : σ} {cause : Crash} :
    Crashes (run outcomeOf cfg p) s cause ↔ Unrun cfg p s cause := by
  obtain ⟨hstarved, hfed⟩ := perform_run cfg p s
  rw [Crashes]
  by_cases hroom : StarvedOn p (Run.session cfg p.dimension ampleFuel) s
  · rw [hstarved hroom]
    constructor
    · intro h
      cases h
      exact .room hroom
    · intro h
      cases h with
      | room => rfl
      | nodes hfed => exact absurd hroom hfed
  · obtain ⟨hoverflow, -⟩ := Run.session_accounts cfg (Enumerator.oracle p)
      (clockOn p (Run.session cfg p.dimension ampleFuel) s) ampleFuel (.ofProgram p none)
    have hdim : (Enumerator.oracle p).dimension ≤ maxLength := p.c1_length_le.trans (by decide)
    have hcrash : (resultOn cfg p s).mapError outcomeOf = .error (.ended (.crashed cause)) ↔
        resultOn cfg p s = .error (.crash cause) := by
      cases resultOn cfg p s with
      | ok c => simp [Except.mapError]
      | error f => simp [Except.mapError, outcomeOf_eq_crashed_iff]
    rw [hfed hroom, hcrash]
    constructor
    · intro h
      have hcause := Run.crash_eq_addOverflow hdim h
      subst hcause
      exact .nodes hroom (hoverflow.1 h)
    · intro h
      cases h with
      | room h => exact absurd h hroom
      | nodes _ hnodes => exact hoverflow.2 hnodes

/-- A run does not use up its fuel. -/
theorem settles_run (cfg : Config Float) (p : Program Float) :
    Stops (· ≠ .unfinished) (run outcomeOf cfg p : Step (StateM σ) (Conclusion Float)) := by
  intro s o ho
  obtain ⟨hstarved, hfed⟩ := perform_run cfg p s
  by_cases hroom : StarvedOn p (Run.session cfg p.dimension ampleFuel) s
  · rw [hstarved hroom] at ho
    cases ho
    nofun
  · have hfuel : resultOn cfg p s ≠ .error .outOfFuel :=
      Run.session_ne_outOfFuel (Enumerator.countsNodes p) cfg _
        (by decide : 2 * Work.nodeBound < ampleFuel) (.ofProgram p none)
    rw [hfed hroom] at ho
    cases hresult : resultOn cfg p s with
    | ok c =>
        rw [hresult] at ho
        cases ho
    | error f =>
        rw [hresult] at ho hfuel
        cases ho
        exact outcomeOf_ne_unfinished fun h => hfuel (congrArg Except.error h)

end Sessions

end Command

end Biobjective
